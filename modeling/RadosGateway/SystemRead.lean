import RadosGateway.Host

/-!
# Reading a system object

The read operation of the port: `stat` remembers the size of the file, and `read` fills a buffer of
one block at a time and appends it to the output. Nothing initialises the buffer, so what it holds
at the start comes from outside. -/

namespace RadosGateway

open Text

def blockSize : Nat := 1024

/-- The part of `buf` that is appended to the output. -/
abbrev Block := { b : Bytes // b.length = blockSize }

/-- A read into the buffer: what it does not reach stays. -/
def Block.fill (buf : Block) (data : Bytes) : Block :=
  ⟨data.take blockSize ++ buf.1.drop data.length, by
    have h := buf.2
    simp only [List.length_append, List.length_take, List.length_drop]
    omega⟩

/-- `librados::ObjectReadOperation`. The size is not initialised until `stat` has succeeded. -/
structure ReadOperation where
  fullPath : Bytes
  size : UInt64

namespace ReadOperation

/-- `stat`: the operation behind the call, and `prval`. -/
def stat (op : ReadOperation) : Prog (ReadOperation × Int) := do
  match ← statFile (cstr op.fullPath) with
  | none => pure (op, -1)
  | some size => pure ({ op with size := UInt64.ofNat size }, 0)

/-- `pread`, whose offset is a signed number. -/
def preadBlock (fd : Fd) (off : UInt64) : Prog (Option Bytes) :=
  if toI64 off.toNat < 0 then pure none else preadFd fd off.toNat blockSize

/-- The loop of `read`: what has been appended, and `ret`. -/
def readBlocks (fd : Fd) (off : UInt64) (left : Int) (buf : Block) (ret : Int) (out : Bytes) :
    Prog (Bytes × Int) :=
  if 0 < left then do
    match ← preadBlock fd off with
    | none => pure (out, -1)
    | some data =>
      let buf := buf.fill data
      readBlocks fd off (left - blockSize) buf data.length (out ++ buf.1)
  else pure (out, ret)
termination_by left.toNat
decreasing_by simp only [blockSize]; omega

def read (op : ReadOperation) (off len : UInt64) (buf : Block) (out : Bytes) :
    Prog (Bytes × Int) := do
  let left := toI64 (if len > op.size then op.size else len).toNat
  match ← openFile (cstr op.fullPath) .rdonly with
  | none => pure (out, -1)
  | some fd => readBlocks fd off left buf (-1) out

/-- The two calls of `raw_obj_stat`, one after the other. -/
def statAndRead (op : ReadOperation) (off len : UInt64) (buf : Block) (out : Bytes) :
    Prog Bytes := do
  let (op, _) ← op.stat
  let (out, _) ← op.read off len buf out
  pure out

end ReadOperation

end RadosGateway
