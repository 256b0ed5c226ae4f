import RadosGateway.Proof.Containment
import RadosGateway.Proof.FailedUpload
import RadosGateway.Proof.QuotaRun
import RadosGateway.Proof.Concurrent
import RadosGateway.Proof.CacheChaining
import RadosGateway.Proof.StringToSign
import RadosGateway.Proof.RestInput
import RadosGateway.Proof.Cgw
import RadosGateway.Proof.ListBuckets
import RadosGateway.Proof.Identity
import RadosGateway.Proof.Olh
import RadosGateway.Proof.DataChangesLog
import RadosGateway.Proof.SystemRead
import RadosGateway.Proof.CacheGeneration
import RadosGateway.Proof.QuotaCheck
import RadosGateway.Proof.StatRoundTrip
import RadosGateway.Proof.ConfFile
import RadosGateway.Proof.UserRecords
import RadosGateway.Proof.Manifest
import RadosGateway.Proof.QueryString
import RadosGateway.Proof.ReadPrepare
import RadosGateway.Proof.ShardedPool
import RadosGateway.Proof.Armor
import RadosGateway.Proof.UsageLog
import RadosGateway.Proof.Cleanup
import RadosGateway.Proof.MetadataLog
import RadosGateway.Cors
import RadosGateway.Proof.DataLogListing
import RadosGateway.Proof.Utime
import RadosGateway.Proof.Composition
