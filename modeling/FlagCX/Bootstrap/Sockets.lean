import FlagCX.Bootstrap.Connections
import FlagCX.Lib.Bytes
import FlagCX.Lib.Chunking

/-!
# Bytes on the sockets of the bootstrap (`bootstrapNetSend`, `bootstrapNetRecv`, `bootstrapNetSendRecv`)

A message is a header with the number of bytes, an `int`, and the bytes. On a connection the two go together; on the sockets of
the ring they are sent one after the other. A number of bytes that is not positive moves nothing.
-/

namespace FlagCX.Bootstrap
open Lib

inductive DataType where
  | int8
  | uint8
  | int32
  | uint32
  | int64
  | uint64
  | float16
  | float32
  | float64
  | bfloat16
  deriving DecidableEq, Repr

def getFlagcxDataTypeSize : DataType → Nat
  | .int8 | .uint8 => 1
  | .float16 | .bfloat16 => 2
  | .int32 | .uint32 | .float32 => 4
  | .int64 | .uint64 | .float64 => 8

theorem typeSize_pos (datatype : DataType) : 0 < getFlagcxDataTypeSize datatype := by cases datatype <;> decide

/-- What goes through a socket: a header, bytes, or on a connection a header and the bytes. -/
inductive Packet where
  | size (n : Int)
  | data (bytes : List UInt8)
  | message (n : Int) (bytes : List UInt8)
  deriving DecidableEq, Repr

variable {ν : Type}

/-- `bootstrapSend` on a connection of its own (`bootstrapCollSendInternal`): `size` bytes from `offset` on. -/
def bootstrapSend (peer : Nat) (tag : Int) (buff : Buffer) (offset : Nat) (size : Int) : Coll Packet ν PUnit :=
  .send peer (.tag tag) (.message size (buff.read offset size.toNat)) (.done ⟨⟩)

/-- What `bootstrapNetRecv` does with a message on a connection. -/
def bootstrapNetRecv (buff : Buffer) (offset : Nat) (size : Int) : Packet → Coll Packet ν Buffer
  | .message recvSize bytes =>
    if recvSize > size then .stop .internalError else .done (buff.write offset (bytes.take (min recvSize size).toNat))
  | _ => .stop .internalError

/-- `bootstrapRecv` (`bootstrapCollRecvInternal`): the buffer with what was received at `offset`. -/
def bootstrapRecv (peer : Nat) (tag : Int) (buff : Buffer) (offset : Nat) (size : Int) : Coll Packet ν Buffer :=
  .recv peer (.tag tag) (bootstrapNetRecv buff offset size)

theorem bootstrapNetRecv_message (buff src : Buffer) (offset offset' : Nat) (size : Int) :
    bootstrapNetRecv (ν := ν) buff offset size (.message size (src.read offset' size.toNat)) =
      .done (buff.write offset (src.read offset' size.toNat)) := by
  rw [bootstrapNetRecv, if_neg (Int.lt_irrefl size), Int.min_self, Buffer.take_read (le_rfl)]

/-! ## The ring -/

/-- The rank at the other end of `ringSendSocket`. -/
def ringNext (nranks rank : Nat) : Nat := (rank + 1) % nranks

/-- The rank at the other end of `ringRecvSocket`. -/
def ringPrev (nranks rank : Nat) : Nat := (rank + nranks - 1) % nranks

def sendBytes (next : Nat) (buff : Buffer) (offset : Nat) (size : Int) : Coll Packet ν PUnit :=
  if 0 < size then .send next .ring (.data (buff.read offset size.toNat)) (.done ⟨⟩) else .done ⟨⟩

def recvBytes (prev : Nat) (buff : Buffer) (offset : Nat) (size : Int) : Coll Packet ν Buffer :=
  if 0 < size then .recv prev .ring fun
    | .data bytes => .done (buff.write offset (bytes.take size.toNat))
    | _ => .stop .internalError
  else .done buff

def bootstrapNetSendRecv (next : Nat) (sendData : Buffer) (sendAt : Nat) (sendSize : Int) (prev : Nat) (recvData : Buffer)
    (recvAt : Nat) (recvSize : Int) : Coll Packet ν Buffer :=
  .send next .ring (.size sendSize) <| .recv prev .ring fun
    | .size recvExpectedSize =>
      if recvExpectedSize < 0 ∨ recvExpectedSize > recvSize then .stop .internalError
      else do
        sendBytes next sendData sendAt sendSize
        recvBytes prev recvData recvAt (min recvSize recvExpectedSize)
    | _ => .stop .internalError

end FlagCX.Bootstrap
