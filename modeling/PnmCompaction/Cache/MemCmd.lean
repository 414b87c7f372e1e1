import Mathlib.Logic.Basic

/-!
# Memory commands

`MemCmd` of mem/packet.hh (81-289, with `hasRespData` 603 and `mustCheckAbove`
1425 of `Packet`) and the attribute table `commandInfo` of mem/packet.cc
(66-236). The two deprecated rows of the table have no enumerator and are left
out, as are the printed names.
-/

namespace PnmCompaction.Cache

inductive MemCmd
  | invalidCmd
  | readReq | readResp | readRespWithInvalidate
  | writeReq | writeResp | writeCompleteResp
  | writebackDirty | writebackClean | writeClean | cleanEvict
  | softPFReq | softPFExReq | hardPFReq | softPFResp | hardPFResp
  | writeLineReq
  | upgradeReq | scUpgradeReq | upgradeResp | scUpgradeFailReq | upgradeFailResp
  | readExReq | readExResp | readCleanReq | readSharedReq
  | loadLockedReq | storeCondReq | storeCondFailReq | storeCondResp
  | lockedRMWReadReq | lockedRMWReadResp | lockedRMWWriteReq | lockedRMWWriteResp
  | swapReq | swapResp
  | memFenceReq | memSyncReq | memSyncResp | memFenceResp
  | cleanSharedReq | cleanSharedResp | cleanInvalidReq | cleanInvalidResp
  | invalidDestError | badAddressError | readError | writeError
  | functionalReadError | functionalWriteError
  | printReq | flushReq | invalidateReq | invalidateResp
  | htmReq | htmReqResp | htmAbort
  | tlbiExtSync
  deriving DecidableEq, Repr

inductive Attribute
  | isRead | isWrite | isUpgrade | isInvalidate | isClean | needsWritable
  | isRequest | isResponse | needsResponse | isEviction
  | isSWPrefetch | isHWPrefetch | isLlsc | isLockedRMW | hasData
  | isError | isPrint | isFlush | fromCache
  deriving DecidableEq, Repr

namespace MemCmd

def attributes : MemCmd → List Attribute
  | invalidCmd => []
  | readReq => [.isRead, .isRequest, .needsResponse]
  | readResp => [.isRead, .isResponse, .hasData]
  | readRespWithInvalidate => [.isRead, .isResponse, .hasData, .isInvalidate]
  | writeReq => [.isWrite, .needsWritable, .isRequest, .needsResponse, .hasData]
  | writeResp => [.isWrite, .isResponse]
  | writeCompleteResp => [.isWrite, .isResponse]
  | writebackDirty => [.isWrite, .isRequest, .isEviction, .hasData, .fromCache]
  | writebackClean => [.isWrite, .isRequest, .isEviction, .hasData, .fromCache]
  | writeClean => [.isWrite, .isRequest, .hasData, .fromCache]
  | cleanEvict => [.isRequest, .isEviction, .fromCache]
  | softPFReq => [.isRead, .isRequest, .isSWPrefetch, .needsResponse]
  | softPFExReq =>
    [.isRead, .needsWritable, .isInvalidate, .isRequest, .isSWPrefetch, .needsResponse]
  | hardPFReq => [.isRead, .isRequest, .isHWPrefetch, .needsResponse, .fromCache]
  | softPFResp => [.isRead, .isResponse, .isSWPrefetch, .hasData]
  | hardPFResp => [.isRead, .isResponse, .isHWPrefetch, .hasData]
  | writeLineReq => [.isWrite, .needsWritable, .isRequest, .needsResponse, .hasData]
  | upgradeReq =>
    [.isInvalidate, .needsWritable, .isUpgrade, .isRequest, .needsResponse, .fromCache]
  | scUpgradeReq =>
    [.isInvalidate, .needsWritable, .isUpgrade, .isLlsc, .isRequest, .needsResponse,
      .fromCache]
  | upgradeResp => [.isUpgrade, .isResponse]
  | scUpgradeFailReq =>
    [.isRead, .needsWritable, .isInvalidate, .isLlsc, .isRequest, .needsResponse, .fromCache]
  | upgradeFailResp => [.isRead, .isResponse, .hasData]
  | readExReq =>
    [.isRead, .needsWritable, .isInvalidate, .isRequest, .needsResponse, .fromCache]
  | readExResp => [.isRead, .isResponse, .hasData]
  | readCleanReq => [.isRead, .isRequest, .needsResponse, .fromCache]
  | readSharedReq => [.isRead, .isRequest, .needsResponse, .fromCache]
  | loadLockedReq => [.isRead, .isLlsc, .isRequest, .needsResponse]
  | storeCondReq => [.isWrite, .needsWritable, .isLlsc, .isRequest, .needsResponse, .hasData]
  | storeCondFailReq =>
    [.isWrite, .needsWritable, .isLlsc, .isRequest, .needsResponse, .hasData]
  | storeCondResp => [.isWrite, .isLlsc, .isResponse]
  | lockedRMWReadReq => [.isRead, .isLockedRMW, .needsWritable, .isRequest, .needsResponse]
  | lockedRMWReadResp => [.isRead, .isLockedRMW, .needsWritable, .isResponse, .hasData]
  | lockedRMWWriteReq =>
    [.isWrite, .isLockedRMW, .needsWritable, .isRequest, .needsResponse, .hasData]
  | lockedRMWWriteResp => [.isWrite, .isLockedRMW, .needsWritable, .isResponse]
  | swapReq => [.isRead, .isWrite, .needsWritable, .isRequest, .hasData, .needsResponse]
  | swapResp => [.isRead, .isWrite, .isResponse, .hasData]
  | memFenceReq => [.isRequest, .needsResponse]
  | memSyncReq => [.isRequest, .needsResponse]
  | memSyncResp => [.isResponse]
  | memFenceResp => [.isResponse]
  | cleanSharedReq => [.isRequest, .isClean, .needsResponse, .fromCache]
  | cleanSharedResp => [.isResponse, .isClean]
  | cleanInvalidReq => [.isRequest, .isInvalidate, .isClean, .needsResponse, .fromCache]
  | cleanInvalidResp => [.isResponse, .isInvalidate, .isClean]
  | invalidDestError => [.isResponse, .isError]
  | badAddressError => [.isResponse, .isError]
  | readError => [.isRead, .isResponse, .isError]
  | writeError => [.isWrite, .isResponse, .isError]
  | functionalReadError => [.isRead, .isResponse, .isError]
  | functionalWriteError => [.isWrite, .isResponse, .isError]
  | printReq => [.isRequest, .isPrint]
  | flushReq => [.isRequest, .isFlush, .needsWritable]
  | invalidateReq => [.isInvalidate, .isRequest, .needsWritable, .needsResponse, .fromCache]
  | invalidateResp => [.isInvalidate, .isResponse]
  | htmReq => [.isRead, .isRequest, .needsResponse]
  | htmReqResp => [.isRead, .isResponse]
  | htmAbort => [.isRead, .isRequest]
  | tlbiExtSync => [.isRequest]

def responseCommand : MemCmd → MemCmd
  | readReq | readCleanReq | readSharedReq | loadLockedReq => readResp
  | writeReq | writeLineReq => writeResp
  | softPFReq | softPFExReq => softPFResp
  | hardPFReq => hardPFResp
  | upgradeReq | scUpgradeReq => upgradeResp
  | scUpgradeFailReq => upgradeFailResp
  | readExReq => readExResp
  | storeCondReq | storeCondFailReq => storeCondResp
  | lockedRMWReadReq => lockedRMWReadResp
  | lockedRMWWriteReq => lockedRMWWriteResp
  | swapReq => swapResp
  | memFenceReq => memFenceResp
  | memSyncReq => memSyncResp
  | cleanSharedReq => cleanSharedResp
  | cleanInvalidReq => cleanInvalidResp
  | invalidateReq => invalidateResp
  | htmReq => htmReqResp
  | _ => invalidCmd

def testCmdAttrib (cmd : MemCmd) (a : Attribute) : Bool := cmd.attributes.contains a

def isRead (cmd : MemCmd) : Bool := cmd.testCmdAttrib .isRead
def isWrite (cmd : MemCmd) : Bool := cmd.testCmdAttrib .isWrite
def isUpgrade (cmd : MemCmd) : Bool := cmd.testCmdAttrib .isUpgrade
def isRequest (cmd : MemCmd) : Bool := cmd.testCmdAttrib .isRequest
def isResponse (cmd : MemCmd) : Bool := cmd.testCmdAttrib .isResponse
def needsWritable (cmd : MemCmd) : Bool := cmd.testCmdAttrib .needsWritable
def needsResponse (cmd : MemCmd) : Bool := cmd.testCmdAttrib .needsResponse
def isInvalidate (cmd : MemCmd) : Bool := cmd.testCmdAttrib .isInvalidate
def isEviction (cmd : MemCmd) : Bool := cmd.testCmdAttrib .isEviction
def isClean (cmd : MemCmd) : Bool := cmd.testCmdAttrib .isClean
def fromCache (cmd : MemCmd) : Bool := cmd.testCmdAttrib .fromCache
def isWriteback (cmd : MemCmd) : Bool :=
  cmd.testCmdAttrib .isEviction && cmd.testCmdAttrib .hasData
def hasData (cmd : MemCmd) : Bool := cmd.testCmdAttrib .hasData
def isLLSC (cmd : MemCmd) : Bool := cmd.testCmdAttrib .isLlsc
def isLockedRMW (cmd : MemCmd) : Bool := cmd.testCmdAttrib .isLockedRMW
def isSWPrefetch (cmd : MemCmd) : Bool := cmd.testCmdAttrib .isSWPrefetch
def isPrefetch (cmd : MemCmd) : Bool :=
  cmd.testCmdAttrib .isSWPrefetch || cmd.testCmdAttrib .isHWPrefetch
def isError (cmd : MemCmd) : Bool := cmd.testCmdAttrib .isError
def mustCheckAbove (cmd : MemCmd) : Bool := cmd == hardPFReq || cmd.isEviction
def hasRespData (cmd : MemCmd) : Bool := cmd.responseCommand.hasData

end MemCmd

end PnmCompaction.Cache
