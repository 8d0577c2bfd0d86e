import NtpProto.Time

/-!
# Decoded NTP headers

The packet codec (`ntp-proto/src/packet.rs`) is outside this snapshot; the filter reads the
decoded header it produces. The header and its enumerations are modelled from the spec (§6):
every field the filter reads, with the codec's types. The one-byte signed fields `poll` and
`precision` are kept as integers: the filter only passes them to `from_exponent`, which is
defined on every integer.
-/

namespace Ntp

/-- Modelled from the spec: `NtpLeapIndicator`. -/
inductive NtpLeapIndicator where
  | noWarning
  | positive
  | negative
  | unsynchronized
deriving DecidableEq, Repr

/-- `NtpLeapIndicator::is_synchronized`. -/
def NtpLeapIndicator.isSynchronized : NtpLeapIndicator → Bool
  | .unsynchronized => false
  | _ => true

/-- Modelled from the spec: `NtpAssociationMode`, the eight modes of the header. -/
inductive NtpAssociationMode where
  | reserved
  | symmetricActive
  | symmetricPassive
  | client
  | server
  | broadcast
  | control
  | privateUse
deriving DecidableEq, Repr

/-- Modelled from the spec: `ReferenceId`, a 32-bit identifier. -/
structure ReferenceId where
  id : UInt32
deriving DecidableEq, Repr

/-- Modelled from the spec: `NtpHeader`, the decoded header of a received packet. -/
structure NtpHeader where
  leap : NtpLeapIndicator
  mode : NtpAssociationMode
  stratum : UInt8
  /-- `i8`, log2 seconds. -/
  poll : Int
  /-- `i8`, log2 seconds. -/
  precision : Int
  rootDelay : NtpDuration
  rootDispersion : NtpDuration
  referenceId : ReferenceId
  referenceTimestamp : NtpTimestamp
  originTimestamp : NtpTimestamp
  receiveTimestamp : NtpTimestamp
  transmitTimestamp : NtpTimestamp
deriving DecidableEq

end Ntp
