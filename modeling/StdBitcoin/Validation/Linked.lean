import Mathlib.Data.List.Chain
import Mathlib.Data.Set.Function

/-!
# Sequences linked by digests

Every element but the first names the digest of the element before it. Without a
collision the digest of the last element determines the elements before it, as far back
as the shorter of two sequences goes. If the first element names no digest that occurs,
it determines the whole sequence.
-/

namespace Linked

variable {α β : Type} {digest back : α → β} {first second : List α}

/-- Every element but the first names its predecessor. -/
def Links (digest back : α → β) (elems : List α) : Prop :=
  elems.IsChain fun parent child => back child = digest parent

/-- An element links to the last one in front of it. -/
theorem links_append_singleton_iff {front : List α} {last : α} :
    Links digest back (front ++ [last]) ↔
      Links digest back front ∧ ∀ tip ∈ front.getLast?, back last = digest tip := by
  rw [Links, List.isChain_append]
  simp [Links]

/-- Suffixes grow together. -/
theorem suffix_append_singleton {short long : List α} (suffix : short <:+ long) (last : α) :
    short ++ [last] <:+ long ++ [last] := by
  obtain ⟨front, rfl⟩ := suffix
  exact ⟨front, (List.append_assoc ..).symm⟩

/-- Sequences whose last digests agree agree as far as both go. -/
theorem suffix_or_suffix_of_tip (left : Links digest back first) (right : Links digest back second)
    (no_collision : Set.InjOn digest {elem | elem ∈ first ∨ elem ∈ second})
    (tips : first.getLast?.map digest = second.getLast?.map digest) :
    first <:+ second ∨ second <:+ first := by
  induction first using List.reverseRecOn generalizing second with
  | nil => exact .inl List.nil_suffix
  | append_singleton front x ih =>
      rcases List.eq_nil_or_concat' second with rfl | ⟨behind, y, rfl⟩
      · exact .inr List.nil_suffix
      rw [List.getLast?_concat, List.getLast?_concat] at tips
      obtain rfl : x = y :=
        no_collision (by simp) (by simp) (Option.some.inj tips)
      obtain ⟨left, front_tip⟩ := links_append_singleton_iff.mp left
      obtain ⟨right, behind_tip⟩ := links_append_singleton_iff.mp right
      cases front_last : front.getLast? with
      | none =>
          rw [List.getLast?_eq_none_iff] at front_last
          rw [front_last]
          exact .inl (List.suffix_append _ _)
      | some u =>
          cases behind_last : behind.getLast? with
          | none =>
              rw [List.getLast?_eq_none_iff] at behind_last
              rw [behind_last]
              exact .inr (List.suffix_append _ _)
          | some v =>
              have parents : front.getLast?.map digest = behind.getLast?.map digest := by
                rw [front_last, behind_last, Option.map_some, Option.map_some,
                  ← front_tip u front_last, ← behind_tip v behind_last]
              have fewer : Set.InjOn digest {elem | elem ∈ front ∨ elem ∈ behind} := by
                refine no_collision.mono fun elem member => ?_
                exact member.imp (List.mem_append_left _) (List.mem_append_left _)
              exact (ih left right fewer parents).imp (suffix_append_singleton · x)
                (suffix_append_singleton · x)

/-- A root that names nothing is not reached from anywhere else. -/
theorem eq_of_suffix_of_root {root : α} (links : Links digest back second)
    (suffix : first <:+ second) (starts : first.head? = some root)
    (bottom : ∀ elem ∈ second, digest elem ≠ back root) : first = second := by
  obtain ⟨front, rfl⟩ := suffix
  cases front_last : front.getLast? with
  | none =>
      rw [List.getLast?_eq_none_iff] at front_last
      rw [front_last, List.nil_append]
  | some tip =>
      have named := (List.isChain_append.mp links).2.2 tip front_last root starts
      have member := List.mem_append_left first (List.mem_of_getLast? front_last)
      exact absurd named.symm (bottom tip member)

/-- Chains with one tip and one root that nothing points behind are equal. -/
theorem eq_of_tip_of_root {root : α} (left : Links digest back first)
    (right : Links digest back second)
    (no_collision : Set.InjOn digest {elem | elem ∈ first ∨ elem ∈ second})
    (tips : first.getLast?.map digest = second.getLast?.map digest)
    (first_root : first.head? = some root) (second_root : second.head? = some root)
    (bottom : ∀ elem, elem ∈ first ∨ elem ∈ second → digest elem ≠ back root) :
    first = second := by
  rcases suffix_or_suffix_of_tip left right no_collision tips with suffix | suffix
  · exact eq_of_suffix_of_root right suffix first_root fun elem member => bottom elem (.inr member)
  · exact (eq_of_suffix_of_root left suffix second_root fun elem member =>
      bottom elem (.inl member)).symm

end Linked
