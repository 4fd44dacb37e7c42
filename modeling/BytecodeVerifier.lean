import BytecodeVerifier.Main
import BytecodeVerifier.Proofs.Transfer
import BytecodeVerifier.Proofs.Flow
import BytecodeVerifier.Proofs.Worklist
import BytecodeVerifier.Proofs.Settling
import BytecodeVerifier.Proofs.Passage
import BytecodeVerifier.Proofs.Entry
import BytecodeVerifier.Proofs.Simulation
import BytecodeVerifier.Proofs.Soundness
import BytecodeVerifier.Proofs.Operands
import BytecodeVerifier.Proofs.Assignment
import BytecodeVerifier.Proofs.Safety
import BytecodeVerifier.Proofs.Completeness
import BytecodeVerifier.Proofs.Steadiness
import BytecodeVerifier.Proofs.Confluence
import BytecodeVerifier.Proofs.Inflow
import BytecodeVerifier.Proofs.Invariance
import BytecodeVerifier.Proofs.Termination
import BytecodeVerifier.Proofs.Representation
import BytecodeVerifier.Proofs.Reachability
import BytecodeVerifier.Proofs.Exactness
import BytecodeVerifier.Proofs.Mnemonic
import BytecodeVerifier.Proofs.Preimage
import BytecodeVerifier.Proofs.Transparency
import BytecodeVerifier.Proofs.Lexing
import BytecodeVerifier.Proofs.Labels
import BytecodeVerifier.Proofs.Tokens
import BytecodeVerifier.Proofs.Totality
import BytecodeVerifier.Proofs.Scanning
import BytecodeVerifier.Proofs.Numeral
import BytecodeVerifier.Proofs.Lexeme
import BytecodeVerifier.Proofs.Listing
import BytecodeVerifier.Proofs.Reading
import BytecodeVerifier.Proofs.RoundTrip
import BytecodeVerifier.Proofs.Rejection
import BytecodeVerifier.Proofs.History
import BytecodeVerifier.Proofs.Grammar
import BytecodeVerifier.Proofs.Assembled
import BytecodeVerifier.Proofs.Shape
import BytecodeVerifier.Proofs.Layout
import BytecodeVerifier.Proofs.Collecting
import BytecodeVerifier.Proofs.Resolution
import BytecodeVerifier.Proofs.Pairing
import BytecodeVerifier.Proofs.FiniteSet
import BytecodeVerifier.Proofs.Pointing
import BytecodeVerifier.Proofs.Separation
import BytecodeVerifier.Proofs.Spacing
