import AstPromotion.FileTree
import AstPromotion.Main
import AstPromotion.Proofs.Ownership
import AstPromotion.Proofs.Conservation
import AstPromotion.Proofs.Normalization.Parentheses
import AstPromotion.Proofs.Reoptimization
import AstPromotion.Proofs.Idempotence
import AstPromotion.Proofs.Composition
import AstPromotion.Proofs.Accounting
import AstPromotion.Proofs.Offence
import AstPromotion.Proofs.Unread
import AstPromotion.Proofs.Agreement
import AstPromotion.Proofs.Limits
import AstPromotion.Proofs.Overlap
import AstPromotion.Proofs.Counts
import AstPromotion.Proofs.Callees
import AstPromotion.Proofs.Constructors
import AstPromotion.Proofs.Growth
import AstPromotion.Proofs.Drawing
import AstPromotion.Proofs.Frame
import AstPromotion.Proofs.Slots
import AstPromotion.Proofs.Acyclic
import AstPromotion.Proofs.Captions
import AstPromotion.Proofs.NormalForm
