import Cbor.Head
import Cbor.Config
import Cbor.Error
import Cbor.Float
import Cbor.Float.Layout
import Cbor.Text.Utf8
import Cbor.Item.Basic
import Cbor.Item.Diagnostic
import Cbor.Item.Decode
import Cbor.Item.Encode
import Cbor.Sequence
import Cbor.Item.View
import Cbor.Token
import Cbor.Token.Scanner
import Cbor.Incremental.Frame
import Cbor.Incremental
import Cbor.Proofs.Head
import Cbor.Proofs.Utf8
import Cbor.Proofs.Reader
import Cbor.Proofs.Incremental.Step
import Cbor.Proofs.Incremental.Simulation
import Cbor.Proofs.Incremental.Streaming
import Cbor.Proofs.Incremental.WellFormed
import Cbor.Proofs.Grammar.Basic
import Cbor.Proofs.Grammar.Reads
import Cbor.Proofs.Grammar.Sound
import Cbor.Proofs.Grammar.Writer
import Cbor.Proofs.Grammar.Preferred
import Cbor.Proofs.Reader.Locality
import Cbor.Proofs.Reader.Sequence
import Cbor.Proofs.Token.Encoding
import Cbor.Proofs.Token.Scanner
import Cbor.Proofs.Failure
import Cbor.Proofs.Integers
import Cbor.Proofs.Reader.Bounds
import Cbor.Proofs.Diagnostic
