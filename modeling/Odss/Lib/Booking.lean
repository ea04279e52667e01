import Mathlib.Tactic
import Mathlib.Order.CompletePartialOrder

/-!
# `Odss.Lib.Booking`: sets that share a resource

A resource has positions. Some of them are `reserved` from the start, and users book sets of
positions. A user may only book positions that are not `taken`.

* `Booked` is what holds of the users then.
* `Booked.nil`, `Booked.book` and `Booked.mono` are the rules: the start, a user that books, and
  positions that are taken for another reason.
-/

set_option linter.all false

namespace Odss.Lib

variable {α : Type} {reserved taken taken' : Set α} {users users' : List (Set α)} {user : Set α}

/-- The users have booked positions that are taken. No two of them overlap, and none of them has a
reserved position. -/
structure Booked (reserved taken : Set α) (users : List (Set α)) : Prop where
  reserved_subset : reserved ⊆ taken
  subset : ∀ user ∈ users, user ⊆ taken
  disjoint_reserved : ∀ user ∈ users, Disjoint user reserved
  pairwise : users.Pairwise Disjoint

namespace Booked

theorem nil (h : reserved ⊆ taken) : Booked reserved taken [] where
  reserved_subset := h
  subset := fun _ hmem => absurd hmem List.not_mem_nil
  disjoint_reserved := fun _ hmem => absurd hmem List.not_mem_nil
  pairwise := List.Pairwise.nil

theorem mono (h : Booked reserved taken users) (hsub : taken ⊆ taken') :
    Booked reserved taken' users where
  reserved_subset := h.reserved_subset.trans hsub
  subset := fun user hmem => (h.subset user hmem).trans hsub
  disjoint_reserved := h.disjoint_reserved
  pairwise := h.pairwise

/-- The order of the users plays no part. -/
theorem perm (h : Booked reserved taken users) (hperm : users.Perm users') :
    Booked reserved taken users' where
  reserved_subset := h.reserved_subset
  subset := fun user hmem => h.subset user (hperm.mem_iff.mpr hmem)
  disjoint_reserved := fun user hmem => h.disjoint_reserved user (hperm.mem_iff.mpr hmem)
  pairwise := (hperm.pairwise_iff fun hdisj => Disjoint.symm hdisj).mp h.pairwise

theorem book (h : Booked reserved taken users) (hfree : Disjoint user taken)
    (hsub : taken ⊆ taken') (huser : user ⊆ taken') : Booked reserved taken' (user :: users) where
  reserved_subset := h.reserved_subset.trans hsub
  subset := by
    intro user' hmem
    rcases List.mem_cons.mp hmem with rfl | hmem
    · exact huser
    · exact (h.subset user' hmem).trans hsub
  disjoint_reserved := by
    intro user' hmem
    rcases List.mem_cons.mp hmem with rfl | hmem
    · exact hfree.mono_right h.reserved_subset
    · exact h.disjoint_reserved user' hmem
  pairwise := by
    refine List.pairwise_cons.mpr ⟨?_, h.pairwise⟩
    intro user' hmem
    exact hfree.mono_right (h.subset user' hmem)

end Booked

end Odss.Lib
