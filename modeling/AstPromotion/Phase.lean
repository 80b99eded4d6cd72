import AstPromotion.Normalization
import AstPromotion.Promotion

/-! # Phases

A tree goes through two phases, each run until a pass over the tree changes
nothing.
-/

namespace AstPromotion

/-- Normalization rewrites from the root down, promotion from the leaves up. -/
inductive Phase
  | normalization
  | promotion
deriving DecidableEq, Repr

namespace Phase

/-- What a phase is called in messages. -/
def label : Phase → String
  | normalization => "structure"
  | promotion => "group"

def catalogue : Phase → Catalogue
  | normalization => Normalization.catalogue
  | promotion => Promotion.catalogue

end Phase

end AstPromotion
