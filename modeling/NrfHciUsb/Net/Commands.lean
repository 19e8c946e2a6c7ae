import Mathlib.Data.Nat.Notation

/-!
# Net — Commands

The command table of the net core's dispatcher (`dispatch_hci_cmd` in `net/src/main.rs`): for each
opcode it handles, the macro of its arm and the `sdc_hci_cmd_*` function the arm calls.

The types an arm names are those of its function, `<fn>_t` for the parameters and
`<fn>_return_t` for the return data, so an arm of the table leaves them out.
-/

namespace NrfHciUsb

/-- The functions `sdc_hci_cmd_*` of the SoftDevice Controller that the dispatcher calls. -/
inductive SdcHciCmd where
  | cbSetEventMask
  | cbReset
  | cbSetControllerToHostFlowControl
  | cbHostBufferSize
  | cbHostNumberOfCompletedPackets
  | cbSetEventMaskPage2
  | lcDisconnect
  | lcReadRemoteVersionInformation
  | ipReadLocalVersionInformation
  | ipReadLocalSupportedCommands
  | ipReadLocalSupportedFeatures
  | ipReadBdAddr
  | leSetEventMask
  | leReadBufferSize
  | leReadLocalSupportedFeatures
  | leSetRandomAddress
  | leSetAdvParams
  | leReadAdvPhysicalChannelTxPower
  | leSetAdvData
  | leSetScanResponseData
  | leSetAdvEnable
  | leSetScanParams
  | leSetScanEnable
  | leCreateConn
  | leCreateConnCancel
  | leReadFilterAcceptListSize
  | leClearFilterAcceptList
  | leAddDeviceToFilterAcceptList
  | leRemoveDeviceFromFilterAcceptList
  | leConnUpdate
  | leSetHostChannelClassification
  | leReadChannelMap
  | leReadRemoteFeatures
  | leEncrypt
  | leRand
  | leEnableEncryption
  | leLongTermKeyRequestReply
  | leLongTermKeyRequestNegativeReply
  | leReadSupportedStates
  | leSetDataLength
  | leReadSuggestedDefaultDataLength
  | leWriteSuggestedDefaultDataLength
  | leAddDeviceToResolvingList
  | leRemoveDeviceFromResolvingList
  | leClearResolvingList
  | leReadResolvingListSize
  | leSetPrivacyMode
  | leSetAddressResolutionEnable
  | leSetResolvablePrivateAddressTimeout
  | leReadMaxDataLength
  | leReadPhy
  | leSetDefaultPhy
  | leSetPhy
  | leSetAdvSetRandomAddress
  | leSetExtAdvParams
  | leSetExtAdvData
  | leSetExtAdvEnable
  | leReadMaxAdvDataLength
  | leReadNumberOfSupportedAdvSets
  | leRemoveAdvSet
  | leClearAdvSets
  | leSetExtScanParams
  | leSetExtScanEnable
  | leExtCreateConn
  | lePeriodicAdvCreateSync
  | lePeriodicAdvCreateSyncCancel
  | lePeriodicAdvTerminateSync
  | leAddDeviceToPeriodicAdvList
  | leRemoveDeviceFromPeriodicAdvList
  | leClearPeriodicAdvList
  | leReadPeriodicAdvListSize
  | leReadTransmitPower
  | leSetHostFeature
  | leSetCigParams
  | leSetCigParamsTest
  | leCreateCis
  | leRemoveCig
  | leAcceptCisRequest
  | leRejectCisRequest
  | leCreateBig
  | leCreateBigTest
  | leTerminateBig
  | leBigCreateSync
  | leBigTerminateSync
  | leSetupIsoDataPath
  | leRemoveIsoDataPath
  | leIsoTransmitTest
  | leIsoReceiveTest
  | leIsoReadTestCounters
  | leIsoTestEnd
  | leReadIsoTxSync
  | leReadIsoLinkQuality
  deriving DecidableEq, Repr

/-- The arms of the dispatcher, by the macro that makes them. -/
inductive Arm where
  | cmdP (fn : SdcHciCmd)
  | cmdN (fn : SdcHciCmd)
  | cmdR (fn : SdcHciCmd)
  | cmdPr (fn : SdcHciCmd)
  | cmdAsyncP (fn : SdcHciCmd)
  | cmdAsyncN (fn : SdcHciCmd)
  deriving DecidableEq, Repr

open SdcHciCmd Arm in
/-- The arms of `match opcode`, in order; any other opcode falls through. -/
def commandTable : List (UInt16 × Arm) := [
  -- Controller & Baseband (OGF 0x03)
  (0x0C01, cmdP cbSetEventMask),
  (0x0C03, cmdN cbReset),
  (0x0C31, cmdP cbSetControllerToHostFlowControl),
  (0x0C33, cmdP cbHostBufferSize),
  (0x0C35, cmdP cbHostNumberOfCompletedPackets),
  (0x0C63, cmdP cbSetEventMaskPage2),
  -- Link Control (OGF 0x01)
  (0x0406, cmdAsyncP lcDisconnect),
  (0x041D, cmdAsyncP lcReadRemoteVersionInformation),
  -- Informational Parameters (OGF 0x04)
  (0x1001, cmdR ipReadLocalVersionInformation),
  (0x1002, cmdR ipReadLocalSupportedCommands),
  (0x1003, cmdR ipReadLocalSupportedFeatures),
  (0x1009, cmdR ipReadBdAddr),
  -- LE Controller Commands (OGF 0x08)
  (0x2001, cmdP leSetEventMask),
  (0x2002, cmdR leReadBufferSize),
  (0x2003, cmdR leReadLocalSupportedFeatures),
  (0x2005, cmdP leSetRandomAddress),
  (0x2006, cmdP leSetAdvParams),
  (0x2007, cmdR leReadAdvPhysicalChannelTxPower),
  (0x2008, cmdP leSetAdvData),
  (0x2009, cmdP leSetScanResponseData),
  (0x200A, cmdP leSetAdvEnable),
  (0x200B, cmdP leSetScanParams),
  (0x200C, cmdP leSetScanEnable),
  (0x200D, cmdAsyncP leCreateConn),
  (0x200E, cmdAsyncN leCreateConnCancel),
  (0x200F, cmdR leReadFilterAcceptListSize),
  (0x2010, cmdN leClearFilterAcceptList),
  (0x2011, cmdP leAddDeviceToFilterAcceptList),
  (0x2012, cmdP leRemoveDeviceFromFilterAcceptList),
  (0x2013, cmdAsyncP leConnUpdate),
  (0x2014, cmdP leSetHostChannelClassification),
  (0x2015, cmdPr leReadChannelMap),
  (0x2016, cmdAsyncP leReadRemoteFeatures),
  (0x2017, cmdPr leEncrypt),
  (0x2018, cmdR leRand),
  (0x2019, cmdAsyncP leEnableEncryption),
  (0x201A, cmdPr leLongTermKeyRequestReply),
  (0x201B, cmdPr leLongTermKeyRequestNegativeReply),
  (0x201C, cmdR leReadSupportedStates),
  (0x2022, cmdPr leSetDataLength),
  (0x2023, cmdR leReadSuggestedDefaultDataLength),
  (0x2024, cmdP leWriteSuggestedDefaultDataLength),
  (0x2027, cmdP leAddDeviceToResolvingList),
  (0x2028, cmdP leRemoveDeviceFromResolvingList),
  (0x2029, cmdN leClearResolvingList),
  (0x202A, cmdR leReadResolvingListSize),
  (0x202C, cmdP leSetPrivacyMode),
  (0x202D, cmdP leSetAddressResolutionEnable),
  (0x202E, cmdP leSetResolvablePrivateAddressTimeout),
  (0x202F, cmdR leReadMaxDataLength),
  (0x2030, cmdPr leReadPhy),
  (0x2031, cmdP leSetDefaultPhy),
  (0x2032, cmdAsyncP leSetPhy),
  -- LE 5.0 Extended Advertising (OGF 0x08)
  (0x2035, cmdP leSetAdvSetRandomAddress),
  (0x2036, cmdPr leSetExtAdvParams),
  (0x2037, cmdP leSetExtAdvData),
  (0x2039, cmdP leSetExtAdvEnable),
  (0x203A, cmdR leReadMaxAdvDataLength),
  (0x203B, cmdR leReadNumberOfSupportedAdvSets),
  (0x203C, cmdP leRemoveAdvSet),
  (0x203D, cmdN leClearAdvSets),
  -- LE 5.0 Extended Scanning (OGF 0x08)
  (0x2041, cmdP leSetExtScanParams),
  (0x2042, cmdP leSetExtScanEnable),
  (0x2043, cmdAsyncP leExtCreateConn),
  -- LE 5.0 Periodic Advertising (OGF 0x08)
  (0x2044, cmdAsyncP lePeriodicAdvCreateSync),
  (0x2045, cmdAsyncN lePeriodicAdvCreateSyncCancel),
  (0x2046, cmdP lePeriodicAdvTerminateSync),
  (0x2047, cmdP leAddDeviceToPeriodicAdvList),
  (0x2048, cmdP leRemoveDeviceFromPeriodicAdvList),
  (0x2049, cmdN leClearPeriodicAdvList),
  (0x204A, cmdR leReadPeriodicAdvListSize),
  (0x204B, cmdR leReadTransmitPower),
  -- LE 5.2 Host Feature (OGF 0x08)
  (0x2059, cmdP leSetHostFeature),
  -- LE 5.2 Isochronous Channels — CIS (OGF 0x08)
  (0x2062, cmdPr leSetCigParams),
  (0x2063, cmdPr leSetCigParamsTest),
  (0x2064, cmdAsyncP leCreateCis),
  (0x2065, cmdPr leRemoveCig),
  (0x2066, cmdP leAcceptCisRequest),
  (0x2067, cmdPr leRejectCisRequest),
  -- LE 5.2 Isochronous Channels — BIS (OGF 0x08)
  (0x2068, cmdAsyncP leCreateBig),
  (0x2069, cmdAsyncP leCreateBigTest),
  (0x206A, cmdAsyncP leTerminateBig),
  (0x206B, cmdAsyncP leBigCreateSync),
  (0x206C, cmdPr leBigTerminateSync),
  -- LE 5.2 ISO Data Path & Test (OGF 0x08)
  (0x206E, cmdPr leSetupIsoDataPath),
  (0x206F, cmdPr leRemoveIsoDataPath),
  (0x2070, cmdPr leIsoTransmitTest),
  (0x2071, cmdPr leIsoReceiveTest),
  (0x2072, cmdPr leIsoReadTestCounters),
  (0x2073, cmdPr leIsoTestEnd),
  (0x2075, cmdPr leReadIsoTxSync),
  (0x2076, cmdPr leReadIsoLinkQuality)]

end NrfHciUsb
