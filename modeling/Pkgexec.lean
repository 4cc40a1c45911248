import Pkgexec.CStrings
import Pkgexec.CappedBuffers
import Pkgexec.DelimitedLists
import Pkgexec.Utf8Encoding
import Pkgexec.JsonValues
import Pkgexec.FuelRuns
import Pkgexec.PlanDigest
import Pkgexec.EncoderSpecs
import Pkgexec.RecordEncodings
import Pkgexec.RecordKinds
import Pkgexec.CanonicalPlans
import Pkgexec.RecordDecoding
import Pkgexec.OwnershipPolicy
import Pkgexec.RequestParsing
import Pkgexec.ReceiptRedemption
import Pkgexec.PlanSteps
import Pkgexec.CommitGate
import Pkgexec.AptDescriptors
import Pkgexec.ChildSpawn
import Pkgexec.Effectors
import Pkgexec.EffectCourses
import Pkgexec.EffectDiscipline
import Pkgexec.HoldOwnership
import Pkgexec.JsonPrinting
import Pkgexec.PreviewPlanner
import Pkgexec.PreviewAgreement
import Pkgexec.BrokerTransport
import Pkgexec.RequestSchema
import Pkgexec.ReplyClassification
import Pkgexec.EncoderDomain
import Pkgexec.BuilderDomain
import Pkgexec.SelectionPayload
import Pkgexec.WireDiscipline
import Pkgexec.BigEndian
import Pkgexec.ReplyDecoding
import Pkgexec.EffectOutcomes
import Pkgexec.JsonLengths
import Pkgexec.CapComposition
import Pkgexec.RequestReading
import Pkgexec.DeadlineDiscipline
import Pkgexec.CharClasses
import Pkgexec.FieldReads
import Pkgexec.TargetGrammar
import Pkgexec.ResourceTokens
import Pkgexec.SigningKeys
import Pkgexec.ResultChannel
import Pkgexec.OwnershipGrammar
import Pkgexec.DeadlineArithmetic
import Pkgexec.DoublingLoops
import Pkgexec.DigestBuffer
import Pkgexec.DecimalNumerals
import Pkgexec.DescriptorTables
import Pkgexec.ProcessHygiene
import Pkgexec.ChildIsolation
import Pkgexec.Entrypoint
import Pkgexec.EntrypointRuns
import Pkgexec.EntrypointGuarantees
import Pkgexec.LockedPlanner
import Pkgexec.PlannerAgreement
import Pkgexec.Interleavings
import Pkgexec.JsonReading
import Pkgexec.BrokerLedger
import Pkgexec.ApprovedPlans
import Pkgexec.EffectsOverWire
