import PqSuite.Protocol.Wire

/-!
# Message types of the relay protocol (`messages.h`)
-/

namespace PqSuite

/-- The types of the messages a relay and its clients exchange after the hello; any other byte is
`unknown`. -/
inductive MessageType where
  | relayRegister
  | relayRegisterOk
  | relayAuth
  | relayAuthOk
  | relayDeposit
  | relayDepositOk
  | relayCollect
  | relayEnvelope
  | relayCollectEnd
  | relayAck
  | relayAckOk
  | relayTokenAdd
  | relayTokenRevoke
  | relayTokenOk
  | relayInviteCreate
  | relayInviteOk
  | relayInviteList
  | relayInviteListOk
  | relayInviteCancel
  | relayInviteCancelOk
  | archiveCreate
  | archiveCreateOk
  | archiveJoin
  | archiveJoinOk
  | archiveAuth
  | archiveAuthOk
  | archiveAppend
  | archiveAppendOk
  | archiveStale
  | archiveFetch
  | archiveEntry
  | archiveFetchEnd
  | archiveDelete
  | archiveDeleteOk
  | prekeyPut
  | prekeyPutOk
  | prekeyTake
  | prekeyData
  | prekeyStatus
  | prekeyStatusOk
  | fileUploadBegin
  | fileUploadOk
  | fileChunk
  | fileChunkOk
  | fileDownload
  | fileInfo
  | fileData
  | fileDownloadEnd
  | fileRedeem
  | fileRedeemOk
  | fileCancel
  | fileCancelOk
  | fileStatus
  | fileStatusOk
  | keyringPut
  | keyringPutOk
  | keyringGet
  | keyringData
  | relayPing
  | relayPong
  | errorMsg
  | unknown (code : UInt8)
  deriving DecidableEq

structure WireMessage where
  type : MessageType
  payload : Bytes
  deriving DecidableEq

end PqSuite
