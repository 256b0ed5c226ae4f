import RadosGateway.Base.FileTree
import RadosGateway.Base.Proc
import RadosGateway.Base.Shell

/-!
# The host

The system calls of the gateway, and what they do to a file tree. What it cannot see of the host are
parameters of a `Kernel`: how much of a write is taken, the size of a directory, and the reaction of
the shell to a line that is not a plain `rm` or `md5sum`.
-/

namespace RadosGateway

open Text Posix

abbrev Fd := Path

inductive OpenMode where
  | rdonly
  | creatTrunc
  | creatAppend
  deriving DecidableEq

inductive Errno where
  | enoent
  | ebusy
  | enotdir
  | eisdir
  | einval
  | enametoolong
  | enotempty
  deriving DecidableEq

def Errno.code : Errno → Int
  | .enoent => 2
  | .ebusy => 16
  | .enotdir => 20
  | .eisdir => 21
  | .einval => 22
  | .enametoolong => 36
  | .enotempty => 39

inductive Sys where
  | setfsuid (uid : Nat)
  | stat (path : Bytes)
  | openFile (path : Bytes) (mode : OpenMode)
  | chmod (path : Bytes) (mode : Nat)
  /-- `none` writes at the end, as a descriptor opened with `O_APPEND` does. -/
  | write (fd : Fd) (offset : Option Nat) (data : Bytes)
  | pread (fd : Fd) (offset len : Nat)
  | readAll (fd : Fd)
  /-- A short text put into a freshly opened stream and flushed by closing it. -/
  | fputs (fd : Fd) (text : Bytes)
  | rename (src dst : Bytes)
  | shell (line : Bytes)

/-- `none` is the failure of a call, except for `rename`, which answers with its `errno`. -/
def Sys.Answer : Sys → Type
  | .setfsuid _ => Nat
  | .stat _ => Option Nat
  | .openFile _ _ => Option Fd
  | .chmod _ _ => Unit
  | .write _ _ _ => Option Nat
  | .pread _ _ _ => Option Bytes
  | .readAll _ => Option Bytes
  | .fputs _ _ => Unit
  | .rename _ _ => Option Errno
  | .shell _ => Bytes

abbrev Prog := Proc Sys Sys.Answer

structure Kernel where
  /-- How many bytes a write takes, given the file, the offset and the number of bytes. -/
  accept : Path → Nat → Nat → Option Nat
  accept_le : ∀ {p offset len n}, accept p offset len = some n → n ≤ len
  dirSize : Path → Nat
  /-- The digest of a file as `md5sum` prints it. -/
  md5 : Bytes → Bytes
  md5_length : ∀ bytes, (md5 bytes).length = 32
  shell : Bytes → FileTree → Bytes × FileTree

structure World where
  fsuid : Nat
  tree : FileTree

def bytesAt (t : FileTree) (p : Path) : Bytes :=
  match t.node p with
  | some (.file bytes) => bytes
  | _ => []

/-- `open`: the place and the tree after the call. -/
def openTree (t : FileTree) (path : Bytes) (mode : OpenMode) : Option (Path × FileTree) :=
  match t.resolve path with
  | none => none
  | some p =>
    match mode with
    | .rdonly => if (t.node p).isSome then some (p, t) else none
    | .creatTrunc => if t.holdsFile p then some (p, t.writeFile p []) else none
    | .creatAppend => if t.holdsFile p then some (p, t.writeFile p (bytesAt t p)) else none

/-- Replace what stands at `offset` by `data`; a gap is filled with zeros. -/
def overwrite (bytes : Bytes) (offset : Nat) (data : Bytes) : Bytes :=
  bytes.take offset ++ List.replicate (offset - bytes.length) 0 ++ data ++
    bytes.drop (offset + data.length)

theorem overwrite_length (bytes data : Bytes) :
    overwrite bytes bytes.length data = bytes ++ data := by
  simp [overwrite]

def lastName (s : Bytes) : Option Bytes := ((components s).filter (· ≠ [])).getLast?

def endsInDots (s : Bytes) : Bool := lastName s = some dot || lastName s = some dotdot

def walkErrno (t : FileTree) (cur : Path) : List Bytes → Errno
  | [] => .enoent
  | c :: cs =>
    match t.node cur with
    | none => .enoent
    | some (.file _) => .enotdir
    | some .dir => if c.length ≤ FileTree.nameMax then walkErrno t (lexStep cur c) cs
      else .enametoolong

def resolveErrno (t : FileTree) (s : Bytes) : Errno :=
  if s.length < FileTree.pathMax then walkErrno t [] (components s) else .enametoolong

def trimSlashes (s : Bytes) : Bytes := (s.reverse.dropWhile (· = 47)).reverse

/-- The place `rename` moves to: slashes after the new name are allowed when a directory is moved.
-/
def renameTarget (t : FileTree) (p : Path) (dst : Bytes) : Option Path :=
  t.resolve (if t.node p = some .dir then trimSlashes dst else dst)

/-- `rename`: the error, if any, and the tree after the call. -/
def renameTree (t : FileTree) (src dst : Bytes) : Option Errno × FileTree :=
  match t.resolve src with
  | none => (some (resolveErrno t src), t)
  | some p =>
    match renameTarget t p dst with
    | none => (some (resolveErrno t dst), t)
    | some q =>
      if endsInDots src ∨ endsInDots dst ∨ p = [] ∨ q = [] then (some .ebusy, t)
      else if t.node p = none then (some .enoent, t)
      else if p = q then (none, t)
      else if p <:+ q then (some .einval, t)
      else if t.node p ≠ some .dir ∧ t.node q = some .dir then (some .eisdir, t)
      else if t.node p = some .dir ∧ t.node q ≠ some .dir ∧ (t.node q).isSome then
        (some .enotdir, t)
      else if t.movable p q then (none, t.move p q)
      else (some .enotempty, t)

/-- `rm -rf` of one operand: it refuses `.` and `..` and passes over what does not exist. -/
def rmTree (t : FileTree) (operand : Bytes) : FileTree :=
  if endsInDots operand then t
  else match t.resolve operand with
    | none => t
    | some p => t.removeTree p

/-- What `md5sum` prints for one operand; it prints nothing for what it cannot read. -/
def md5sum (k : Kernel) (t : FileTree) (operand : Bytes) : Bytes :=
  match t.resolve operand with
  | none => []
  | some p =>
    match t.node p with
    | some (.file bytes) => k.md5 bytes ++ ascii "  " ++ operand ++ [10]
    | _ => []

/-- The commands the gateway has the shell run, on arguments it gives them. -/
def runCommand (k : Kernel) (args : List Bytes) (t : FileTree) : Option (Bytes × FileTree) :=
  match args with
  | [] => none
  | cmd :: args =>
    if cmd = ascii "rm" ∧ args.filter Shell.isOption = [ascii "-rf"] then
      some ([], (Shell.operands args).foldl rmTree t)
    else if cmd = ascii "md5sum" ∧ args.length = 1 ∧ args.head?.any (·.head? ≠ some 45) then
      some (args.flatMap (md5sum k t), t)
    else none

/-- `popen`: the output of the line and the tree after it. -/
def runLine (k : Kernel) (line : Bytes) (t : FileTree) : Bytes × FileTree :=
  match Shell.lex .bare none line with
  | none => k.shell line t
  | some ws =>
    if ws.any Shell.isPattern then k.shell line t
    else (runCommand k (ws.map Shell.Word.bytes) t).getD (k.shell line t)

def writeTree (k : Kernel) (t : FileTree) (fd : Fd) (offset : Option Nat) (data : Bytes) :
    Option Nat × FileTree :=
  let bytes := bytesAt t fd
  let start := offset.getD bytes.length
  match k.accept fd start data.length with
  | none => (none, t)
  | some n =>
    match t.node fd with
    | some (.file _) => (some n, t.writeFile fd (overwrite bytes start (data.take n)))
    -- the name is gone: the bytes go to a file nobody can reach
    | _ => (some n, t)

def fputsTree (t : FileTree) (fd : Fd) (text : Bytes) : FileTree :=
  match t.node fd with
  | some (.file bytes) => t.writeFile fd (overwrite bytes 0 text)
  | _ => t

def readFile (t : FileTree) (fd : Fd) : Option Bytes :=
  match t.node fd with
  | some (.file bytes) => some bytes
  | _ => none

def statSize (k : Kernel) (t : FileTree) (path : Bytes) : Option Nat :=
  (t.resolve path).bind fun p => (t.node p).map fun n =>
    match n with
    | .dir => k.dirSize p
    | .file bytes => bytes.length

def answer (k : Kernel) : (c : Sys) → World → c.Answer × World
  | .setfsuid uid, w => (w.fsuid, { w with fsuid := uid })
  | .stat path, w => (statSize k w.tree path, w)
  | .openFile path mode, w =>
    let r := openTree w.tree path mode
    (r.map Prod.fst, { w with tree := (r.map Prod.snd).getD w.tree })
  | .chmod _ _, w => ((), w)
  | .write fd offset data, w =>
    let r := writeTree k w.tree fd offset data
    (r.1, { w with tree := r.2 })
  | .pread fd offset len, w => ((readFile w.tree fd).map fun b => (b.drop offset).take len, w)
  | .readAll fd, w => (readFile w.tree fd, w)
  | .fputs fd text, w => ((), { w with tree := fputsTree w.tree fd text })
  | .rename src dst, w =>
    let r := renameTree w.tree src dst
    (r.1, { w with tree := r.2 })
  | .shell line, w =>
    let r := runLine k line w.tree
    (r.1, { w with tree := r.2 })

def exec (k : Kernel) {α : Type} (p : Prog α) (w : World) : Option (α × World) := p.run (answer k) w

theorem readFile_writeFile {t : FileTree} {p : Path} (h : t.holdsFile p) (bytes : Bytes)
    (q : Path) :
    readFile (t.writeFile p bytes) q = if q = p then some bytes else readFile t q := by
  unfold readFile
  rw [FileTree.node_writeFile h]
  split_ifs <;> rfl

theorem readFile_eq_some {t : FileTree} {p : Path} {bytes : Bytes} :
    readFile t p = some bytes ↔ t.node p = some (.file bytes) := by
  rcases hnode : t.node p with - | - | bytes' <;> simp [readFile, hnode]

theorem readFile_eq_none_of_dir {t : FileTree} {p : Path} (h : t.node p = some .dir) :
    readFile t p = none := by
  simp [readFile, h]

theorem node_eq_dir {t : FileTree} {p : Path} (hsome : (t.node p).isSome)
    (hread : readFile t p = none) : t.node p = some .dir := by
  rcases hnode : t.node p with - | - | bytes
  · simp [hnode] at hsome
  · rfl
  · simp [readFile, hnode] at hread

open Proc

def setfsuid (uid : Nat) : Prog Nat := perform (Sys.setfsuid uid)

/-- The user a request is made for, as the `uid_t` that `drop_privs` hands to `setfsuid`. -/
def uidT (auid : Nat) : Nat := auid % 2 ^ 32

def statFile (path : Bytes) : Prog (Option Nat) := perform (Sys.stat path)

def openFile (path : Bytes) (mode : OpenMode) : Prog (Option Fd) := perform (Sys.openFile path mode)

def chmod (path : Bytes) (mode : Nat) : Prog Unit := perform (Sys.chmod path mode)

def writeFd (fd : Fd) (offset : Option Nat) (data : Bytes) : Prog (Option Nat) :=
  perform (Sys.write fd offset data)

def preadFd (fd : Fd) (offset len : Nat) : Prog (Option Bytes) := perform (Sys.pread fd offset len)

def readAll (fd : Fd) : Prog (Option Bytes) := perform (Sys.readAll fd)

def fputs (fd : Fd) (text : Bytes) : Prog Unit := perform (Sys.fputs fd text)

def renameFile (src dst : Bytes) : Prog (Option Errno) := perform (Sys.rename src dst)

def popen (line : Bytes) : Prog Bytes := perform (Sys.shell line)

section Exec

variable (k : Kernel) {α β : Type} (w : World)

@[simp]
theorem exec_pure (a : α) : exec k (pure a) w = some (a, w) := rfl

@[simp]
theorem exec_undef : exec k (undef : Prog α) w = none := rfl

theorem exec_bind (p : Prog α) (f : α → Prog β) :
    exec k (p >>= f) w = (exec k p w).bind fun r => exec k (f r.1) r.2 :=
  run_bind (answer k) p f w

@[simp]
theorem exec_setfsuid_bind (uid : Nat) (f : Nat → Prog β) :
    exec k (setfsuid uid >>= f) w = exec k (f w.fsuid) { w with fsuid := uid } := rfl

@[simp]
theorem exec_statFile_bind (path : Bytes) (f : Option Nat → Prog β) :
    exec k (statFile path >>= f) w = exec k (f (statSize k w.tree path)) w := rfl

@[simp]
theorem exec_openFile_bind (path : Bytes) (mode : OpenMode) (f : Option Fd → Prog β) :
    exec k (openFile path mode >>= f) w = match openTree w.tree path mode with
      | none => exec k (f none) w
      | some (fd, t) => exec k (f (some fd)) { w with tree := t } := by
  change exec k (f ((openTree w.tree path mode).map Prod.fst))
    { w with tree := ((openTree w.tree path mode).map Prod.snd).getD w.tree } = _
  cases openTree w.tree path mode <;> rfl

@[simp]
theorem exec_chmod_bind (path : Bytes) (mode : Nat) (f : Unit → Prog β) :
    exec k (chmod path mode >>= f) w = exec k (f ()) w := rfl

@[simp]
theorem exec_writeFd_bind (fd : Fd) (offset : Option Nat) (data : Bytes) (f : Option Nat → Prog β) :
    exec k (writeFd fd offset data >>= f) w = exec k (f (writeTree k w.tree fd offset data).1)
        { w with tree := (writeTree k w.tree fd offset data).2 } := rfl

@[simp]
theorem exec_preadFd_bind (fd : Fd) (offset len : Nat) (f : Option Bytes → Prog β) :
    exec k (preadFd fd offset len >>= f) w =
      exec k (f ((readFile w.tree fd).map fun b => (b.drop offset).take len)) w := rfl

@[simp]
theorem exec_readAll_bind (fd : Fd) (f : Option Bytes → Prog β) :
    exec k (readAll fd >>= f) w = exec k (f (readFile w.tree fd)) w := rfl

@[simp]
theorem exec_fputs_bind (fd : Fd) (text : Bytes) (f : Unit → Prog β) :
    exec k (fputs fd text >>= f) w =
      exec k (f ()) { w with tree := fputsTree w.tree fd text } := rfl

@[simp]
theorem exec_renameFile_bind (src dst : Bytes) (f : Option Errno → Prog β) :
    exec k (renameFile src dst >>= f) w =
      exec k (f (renameTree w.tree src dst).1)
    { w with tree := (renameTree w.tree src dst).2 } := rfl

@[simp]
theorem exec_popen_bind (line : Bytes) (f : Bytes → Prog β) : exec k (popen line >>= f) w =
      exec k (f (runLine k line w.tree).1) { w with tree := (runLine k line w.tree).2 } := rfl

end Exec

end RadosGateway
