import VaultLink.RenameAtomicity
import VaultLink.TotpReplay
import VaultLink.TransferAccess
import VaultLink.UploadClaims
import VaultLink.UploadIsolation
import VaultLink.UploadQuota
import VaultLink.PolicyEpoch
import VaultLink.GrantRows
import VaultLink.UnlockHistory
import VaultLink.CountingLedger
import VaultLink.LeaseCompletion
import VaultLink.StreamOrder
import VaultLink.LeaseOwnership
import VaultLink.Keyring
import VaultLink.KeyringRotation
import VaultLink.PublicUpload
import VaultLink.UploadCharging
import VaultLink.KeyringLocks
import VaultLink.ClientAddress
import VaultLink.ContainerProxy
import VaultLink.LoginLimiter
import VaultLink.LoginWindow
import VaultLink.AdminAccess
import VaultLink.RuntimeSettings
import VaultLink.SettingsServer
import VaultLink.SettingsPublication
import VaultLink.MultipartChunks
import VaultLink.Overlaps
import VaultLink.ByteMatching
import VaultLink.MultipartGrammar
import VaultLink.SelfDelimiting
import VaultLink.UploadForms
import VaultLink.FingerprintBytes
import VaultLink.UploadReplay
import VaultLink.StagingEffects
import VaultLink.StagingOutcomes
import VaultLink.FragmentPublication
import VaultLink.PathConsistency
import VaultLink.CapturedShares
import VaultLink.CountedExpiry
import VaultLink.ReservationGrowth
import VaultLink.DirectoryScan
import VaultLink.Worklist
import VaultLink.ZipPlan
import VaultLink.ZipPlanning
import VaultLink.Zip64Format
import VaultLink.ZipArchive
import VaultLink.SearchKeys
import VaultLink.AdmissionBudget
import VaultLink.CredentialBlob
import VaultLink.ZipMemory
import VaultLink.AuditRetention
import VaultLink.DirectoryCache
import VaultLink.DirectoryFlights
