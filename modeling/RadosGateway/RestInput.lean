import RadosGateway.Base.Bytes

/-!
# Reading the body of a request

`read_all_chunked_input` reads a body whose length is not announced into a buffer that grows with
it. What the client and the allocator answer is given from outside; memory that is handed to a read,
or written, is recorded with the size of the buffer at that time. -/

namespace RadosGateway.RestInput

open Text

/-- The answers to the reads, by their number and the number of bytes asked for, and to the
allocations. -/
structure Env where
  read : Nat → Nat → Except Int Bytes
  read_le : ∀ i n b, read i n = .ok b → b.length ≤ n
  alloc : Nat → Nat → Bool
  alloc_lt : ∀ i n, alloc i n = true → n < 2 ^ 63

structure Write where
  off : Nat
  size : Nat
  capacity : Nat
  deriving DecidableEq

structure Outcome where
  result : Except Int Bytes
  writes : List Write

def erange : Int := 34

def enomem : Int := 12

def readChunk : Int := 4096

def maxReadChunk : Int := 128 * 1024

/-- The variables of the loop; `data` is the part of the buffer that is filled. -/
structure Loop where
  needToRead : Int
  total : Int
  capacity : Nat
  data : Bytes
  writes : List Write

def turn (env : Env) (maxRead : Int) (i : Nat) (l : Loop) : Loop ⊕ Outcome :=
  let writes := ⟨l.data.length, l.needToRead.toNat, l.capacity⟩ :: l.writes
  match env.read i l.needToRead.toNat with
  | .error r => .inr ⟨.error r, writes⟩
  | .ok b =>
    let data := l.data ++ b
    if (b.length : Int) = l.needToRead then
      let needToRead := if l.needToRead < maxReadChunk then toI32 (l.needToRead * 2)
        else l.needToRead
      if maxRead < l.total then .inr ⟨.error (-erange), writes⟩
      else
        let total := toI32 (l.total + needToRead)
        let size := toU64 (total + 1)
        if env.alloc (i + 1) size then .inl ⟨needToRead, total, size, data, writes⟩
        else .inr ⟨.error (-enomem), writes⟩
    else .inr ⟨.ok data, ⟨data.length, 1, l.capacity⟩ :: writes⟩

def loop (env : Env) (maxRead : Int) : Nat → Nat → Loop → Option Outcome
  | 0, _, _ => none
  | fuel + 1, i, l =>
    match turn env maxRead i l with
    | .inl l => loop env maxRead fuel (i + 1) l
    | .inr o => some o

/-- Every turn adds `READ_CHUNK` or more to `total`, so `2 ^ 19` turns are enough. -/
def readAllChunkedInput (env : Env) (maxRead : Int) : Option Outcome :=
  let size := toU64 (readChunk + 1)
  if env.alloc 0 size then loop env maxRead (2 ^ 19) 0 ⟨readChunk, readChunk, size, [], []⟩
  else some ⟨.error (-enomem), []⟩

end RadosGateway.RestInput
