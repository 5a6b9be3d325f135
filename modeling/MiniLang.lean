import MiniLang.Main
import MiniLang.Proofs.Arithmetic.Wrapping
import MiniLang.Proofs.Compiling.Coherence
import MiniLang.Proofs.Json.Decoding
import MiniLang.Proofs.Layout.Below
import MiniLang.Proofs.Layout.Exact
import MiniLang.Proofs.Layout.Extents
import MiniLang.Proofs.Layout.Nested
import MiniLang.Proofs.Lexing.Adjacent
import MiniLang.Proofs.Naming.Running
import MiniLang.Proofs.Parsing.Ending
import MiniLang.Proofs.Parsing.FirstWrong
import MiniLang.Proofs.Parsing.Interleaving
import MiniLang.Proofs.Parsing.Lookahead
import MiniLang.Proofs.Running.CallChain
import MiniLang.Proofs.Running.Calls
import MiniLang.Proofs.Running.EnoughFrames
import MiniLang.Proofs.Running.Exhaustion
import MiniLang.Proofs.Running.Footprint
import MiniLang.Proofs.Running.Places
import MiniLang.Proofs.Running.Postorder
import MiniLang.Proofs.Running.Raised
import MiniLang.Proofs.Running.Reshaping
import MiniLang.Proofs.Running.Returns
import MiniLang.Proofs.Running.Shielding
import MiniLang.Proofs.Running.Words
import MiniLang.Proofs.Shells.SameRun
import MiniLang.Service
import MiniLang.Proofs.Arithmetic.Exact
