import Mathlib.Data.List.Infix
import Mathlib.Order.BoundedOrder.Basic

/-! # Positions in a tree

A position is the list of names on the way down to it from the top. One position is above
another where its names begin the names of the other. A tree that is hung below a position
takes its own positions with it, and their order.
-/
namespace Trees
variable {α : Type*}

@[ext] structure Position (α : Type*) where
  names : List α

namespace Position
variable {p q r : Position α}

instance : PartialOrder (Position α) where
  le p q := p.names <+: q.names
  le_refl _ := List.prefix_rfl
  le_trans _ _ _ := List.IsPrefix.trans
  le_antisymm _ _ hpq hqp := Position.ext (hpq.eq_of_length_le hqp.length_le)

instance : OrderBot (Position α) where
  bot := ⟨[]⟩
  bot_le _ := List.nil_prefix

theorem le_iff : p ≤ q ↔ p.names <+: q.names := Iff.rfl

@[simp] theorem bot_names : (⊥ : Position α).names = [] := rfl

/-- The position that another has once its tree is hung below `p`. -/
def below (q p : Position α) : Position α := ⟨p.names ++ q.names⟩

@[simp] theorem below_names (q p : Position α) : (q.below p).names = p.names ++ q.names := rfl

theorem le_below (q p : Position α) : p ≤ q.below p := List.prefix_append p.names q.names

/-- Hanging a tree below a position keeps its order as it is. -/
theorem below_le_below : q.below p ≤ r.below p ↔ q ≤ r := List.prefix_append_right_inj p.names

theorem below_below (r q p : Position α) : (r.below q).below p = r.below (q.below p) :=
  Position.ext (List.append_assoc p.names q.names r.names).symm

end Position
end Trees
