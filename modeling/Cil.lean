import Cil.Proofs.AttributeBlobs
import Cil.Proofs.ClauseNesting
import Cil.Proofs.CodedIndices
import Cil.Proofs.Comparisons
import Cil.Proofs.EmptyRanges
import Cil.Proofs.ImageDepths
import Cil.Proofs.MethodNames
import Cil.Proofs.MethodReading
import Cil.Proofs.SignatureBlobs
import Cil.Proofs.Signing
import Cil.Proofs.StaticValues
import Cil.Proofs.SymbolReplay
import Cil.Proofs.TypeForest
import Cil.Proofs.TypeNames
import Cil.Proofs.Widening
