import AccessWindows.Main
import AccessWindows.Files.Tree
import AccessWindows.Proofs.Engine.MaskRecords
import AccessWindows.Proofs.Resolution.Unforgeable
import AccessWindows.Proofs.Engine.Rejection
import AccessWindows.Proofs.Engine.Schedule
import AccessWindows.Proofs.Engine.Withdrawal
import AccessWindows.Proofs.Cbor.RoundTrip
import AccessWindows.Proofs.Forms
import AccessWindows.Proofs.Payload
import AccessWindows.Proofs.Patterns
import AccessWindows.Proofs.PathText
import AccessWindows.Proofs.PermissionText
import AccessWindows.Proofs.Settings
import AccessWindows.Proofs.CommandLine.Configuration
import AccessWindows.Proofs.Engine.Isolation
import AccessWindows.Proofs.Resolution.Log
import AccessWindows.Proofs.Engine.Log
import AccessWindows.Proofs.Engine.Ambiguity
import AccessWindows.Proofs.Engine.InForce
import AccessWindows.Proofs.Engine.MaskGroups
import AccessWindows.Proofs.World
import AccessWindows.Proofs.Fixture
import AccessWindows.Proofs.CommandLine.Agreement
import AccessWindows.Proofs.Identity
import AccessWindows.Proofs.Json.Persisted
import AccessWindows.Proofs.Json.RoundTrip
import AccessWindows.Proofs.CommandLine.Arguments
import AccessWindows.Proofs.Environment
import AccessWindows.Proofs.InstantTexts
import AccessWindows.Proofs.PayloadLayout
import AccessWindows.Proofs.Streams
import AccessWindows.Proofs.Resolution.Completion
import AccessWindows.Proofs.RangeSet.Duration
import AccessWindows.Proofs.HashTexts
import AccessWindows.Proofs.Engine.Questions
import AccessWindows.Proofs.Touching
