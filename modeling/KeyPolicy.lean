import KeyPolicy.Algorithm
import KeyPolicy.Bytes
import KeyPolicy.PublicKey
import KeyPolicy.OrderedSet
import KeyPolicy.Policy.Basic
import KeyPolicy.Policy.Leaves
import KeyPolicy.Policy.Satisfaction
import KeyPolicy.Signature
import KeyPolicy.PrefixIndex
import KeyPolicy.Keccak
import KeyPolicy.Secp256k1
import KeyPolicy.Address
import KeyPolicy.ResolvedSet
import KeyPolicy.Expander
import KeyPolicy.Json.Token
import KeyPolicy.Json.Reader
import KeyPolicy.Json.Writer
import KeyPolicy.Format.Basic
import KeyPolicy.Format.PublicKey
import KeyPolicy.Format.Policy
import KeyPolicy.Format.Signature
import KeyPolicy.Config
import KeyPolicy.Event
import KeyPolicy.Service
import KeyPolicy.Transcript
import KeyPolicy.Draft
import KeyPolicy.Session
import KeyPolicy.Fixture
import KeyPolicy.Probe
import KeyPolicy.Proofs.Expansion
import KeyPolicy.Proofs.Index
import KeyPolicy.Proofs.Buckets
import KeyPolicy.Proofs.Service
import KeyPolicy.Proofs.Authorization
import KeyPolicy.Proofs.Spellings
import KeyPolicy.Proofs.Tokens
import KeyPolicy.Proofs.Nesting
import KeyPolicy.Proofs.Reading
import KeyPolicy.Proofs.Sketch
import KeyPolicy.Proofs.Validation
import KeyPolicy.Proofs.RoundTrip
import KeyPolicy.Proofs.Acceptance
import KeyPolicy.Proofs.Sessions
import KeyPolicy.Proofs.Rewriting
import KeyPolicy.Proofs.Monotonicity
import KeyPolicy.Proofs.Documents
import KeyPolicy.Proofs.Presentation
import KeyPolicy.Proofs.Points
import KeyPolicy.Proofs.FullPrefixes
import KeyPolicy.Proofs.Limits
import KeyPolicy.Proofs.Weight
import KeyPolicy.Proofs.Composition
import KeyPolicy.Proofs.Size
import KeyPolicy.Proofs.Calls
import KeyPolicy.Proofs.Unambiguity
import KeyPolicy.Proofs.Values
import KeyPolicy.Proofs.Settings
import KeyPolicy.Proofs.Cursor
import KeyPolicy.Proofs.Probes
import KeyPolicy.Proofs.Fixtures
