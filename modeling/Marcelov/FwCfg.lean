import Marcelov.Lib.Memory
import Marcelov.Utils

/-!
# The fw_cfg device

`fw_cfg_dma_transfer` of `qemu.c` and its wrappers. The device is a function of the requests made
so far, so it may behave in any way, as long as it ends each operation: that the poll of
`access.control` comes to an end is part of a `DmaReply`.
-/

namespace Marcelov

open Lib

/-! ## What the driver hands over -/

/-- `struct fw_cfg_dma_access` -/
structure DmaAccess where
  selector : BitVec 16
  control : BitVec 16
  size : BitVec 32
  address : BitVec 64

/-- An operation: the descriptor, the two stores that start it, and the bytes at the buffer's
address that a write hands over. -/
structure DmaRequest where
  access : DmaAccess
  dmaAddrHi : BitVec 32
  dmaAddrLow : BitVec 32
  payload : List (BitVec 8)

def fwCfgDmaError : BitVec 16 := 1

/-- `FW_CFG_DMA_READ` -/
def fwCfgDmaReadBit : BitVec 16 := 2

def fwCfgDmaSelect : BitVec 16 := 8

/-- `FW_CFG_DMA_WRITE` -/
def fwCfgDmaWriteBit : BitVec 16 := 16

def fwCfgFileDir : BitVec 16 := 0x0019

namespace DmaRequest

/-- The selector, in the byte order of the device. -/
def selector (q : DmaRequest) : BitVec 16 := bswap2 q.access.selector

def IsWrite (q : DmaRequest) : Prop := bswap2 q.access.control &&& fwCfgDmaWriteBit ≠ 0

end DmaRequest

/-! ## What the device gives back -/

/-- The loop of `fw_cfg_dma_transfer`, over the values of `access.control` it reads: whether the
operation failed, once it is over. -/
def pollControl : List (BitVec 16) → Option Bool
  | [] => none
  | v :: vs =>
    let control := bswap2 v
    if control = 0 then some false
    else if control &&& fwCfgDmaError = 1 then some true
    else pollControl vs

/-- The end of an operation: what the loop reads from `access.control`, and what is in the buffer
after it. -/
structure DmaReply where
  status : List (BitVec 16)
  data : ℕ → BitVec 8
  ends : (pollControl status).isSome

def DmaReply.failed (r : DmaReply) : Bool := (pollControl r.status).get r.ends

/-- The answer to the last of the requests made so far. -/
abbrev FwCfgDevice := List DmaRequest → DmaReply

/-! ## The transfers -/

/-- The descriptor and the stores of `fw_cfg_dma_transfer`, with `access` at `accessAddr`. -/
def dmaRequest (accessAddr : BitVec 64) (selector control : BitVec 16) (size : BitVec 32)
    (address : BitVec 64) (payload : List (BitVec 8)) : DmaRequest where
  access :=
    { selector := bswap2 selector
      control := bswap2 control
      size := bswap4 size
      address := bswap8 address }
  dmaAddrHi := bswap4 ((accessAddr >>> 32).setWidth 32)
  dmaAddrLow := bswap4 ((accessAddr &&& 0xFFFFFFFF).setWidth 32)
  payload := payload

section

variable (dev : FwCfgDevice) (accessAddr : BitVec 64) (log : List DmaRequest)

/-- `fw_cfg_dma_transfer`, after the requests `log`: the answer, and the requests with its own. -/
def fwCfgDmaTransfer (selector control : BitVec 16) (size : BitVec 32) (address : BitVec 64)
    (payload : List (BitVec 8)) : DmaReply × List DmaRequest :=
  let log := log ++ [dmaRequest accessAddr selector control size address payload]
  (dev log, log)

def fwCfgDmaReadFrom (selectorFrom : BitVec 16) (toAddr : BitVec 64) (size : BitVec 32) :
    DmaReply × List DmaRequest :=
  fwCfgDmaTransfer dev accessAddr log selectorFrom (fwCfgDmaSelect ||| fwCfgDmaReadBit) size
    toAddr []

def fwCfgDmaWriteTo (selectorTo : BitVec 16) (fromAddr : BitVec 64) (size : BitVec 32)
    (payload : List (BitVec 8)) : DmaReply × List DmaRequest :=
  fwCfgDmaTransfer dev accessAddr log selectorTo (fwCfgDmaSelect ||| fwCfgDmaWriteBit) size
    fromAddr payload

def fwCfgDmaRead (toAddr : BitVec 64) (size : BitVec 32) : DmaReply × List DmaRequest :=
  fwCfgDmaTransfer dev accessAddr log 0 fwCfgDmaReadBit size toAddr []

end

end Marcelov
