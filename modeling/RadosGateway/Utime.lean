import Mathlib

/-!
# Times with nanoseconds

`utime_t`: seconds and nanoseconds, both 32 bits wide. A `double` is the rational number it stands
for. -/

namespace RadosGateway

structure Utime where
  sec : BitVec 32
  nsec : BitVec 32
  deriving DecidableEq

namespace Utime

def normalize (t : Utime) : Utime :=
  if 1000000000 < t.nsec then ⟨t.sec + t.nsec / 1000000000, t.nsec % 1000000000⟩ else t

def toNsec (t : Utime) : Nat := t.nsec.toNat + t.sec.toNat * 1000000000

/-- The constructor from a `time_t` and an `int`. -/
def make (s n : Int) : Utime := normalize ⟨.ofInt 32 s, .ofInt 32 n⟩

def secs (t : Utime) : Int := t.sec.toNat

/-- `nsec` gives an `int`. -/
def nsecs (t : Utime) : Int := t.nsec.toInt

def add (l r : Utime) : Utime :=
  make (l.secs + r.secs + (l.nsecs + r.nsecs) / 1000000000) ((l.nsecs + r.nsecs) % 1000000000)

def addAssign (l r : Utime) : Utime :=
  ⟨l.sec + .ofInt 32 (r.secs + (l.nsecs + r.nsecs) / 1000000000),
    (l.nsec + .ofInt 32 r.nsecs) % 1000000000⟩

/-- `trunc`, as a `long`. -/
def trunc (f : Rat) : Int := Int.tdiv f.num f.den

def addAssignDouble (l : Utime) (f : Rat) : Utime :=
  let fs := trunc f
  let ns := (f - fs) * 1000000000
  normalize ⟨l.sec + .ofInt 32 fs, l.nsec + .ofInt 32 (trunc ns)⟩

def sub (l r : Utime) : Utime :=
  make (l.secs - r.secs - if l.nsecs < r.nsecs then 1 else 0)
    (l.nsecs - r.nsecs + if l.nsecs < r.nsecs then 1000000000 else 0)

def subAssign (l r : Utime) : Utime :=
  let sec := l.sec - .ofInt 32 r.secs
  if r.nsecs ≤ l.nsecs then ⟨sec, l.nsec - .ofInt 32 r.nsecs⟩
  else ⟨sec - 1, l.nsec + .ofInt 32 (1000000000 - r.nsecs)⟩

def subAssignDouble (l : Utime) (f : Rat) : Utime :=
  let fs := trunc f
  let sec := l.sec - .ofInt 32 fs
  let nsl := trunc ((f - fs) * 1000000000)
  normalize (if nsl ≠ 0 then ⟨sec - 1, .ofInt 32 (1000000000 + l.nsec.toNat - nsl)⟩
    else ⟨sec, l.nsec⟩)

def gt (a b : Utime) : Bool := a.secs > b.secs || a.secs = b.secs && a.nsecs > b.nsecs

def le (a b : Utime) : Bool := !a.gt b

def lt (a b : Utime) : Bool := a.secs < b.secs || a.secs = b.secs && a.nsecs < b.nsecs

def ge (a b : Utime) : Bool := !a.lt b

def eq (a b : Utime) : Bool := a.secs = b.secs && a.nsecs = b.nsecs

def ne (a b : Utime) : Bool := a.secs ≠ b.secs || a.nsecs ≠ b.nsecs

end Utime

end RadosGateway
