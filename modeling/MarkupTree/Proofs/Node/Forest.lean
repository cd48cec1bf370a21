import Mathlib.Data.List.Forall2

/-! Lists that agree place by place. Relations on trees are taken to children this way, and
an induction over trees knows of the relation only at the nodes of one of the lists. -/
namespace MarkupTree
variable {α β : Type} {R S : α → β → Prop} {xs : List α} {ys : List β}

theorem forall₂_imp_of_mem (step : ∀ x ∈ xs, ∀ y, R x y → S x y) (agree : List.Forall₂ R xs ys) :
    List.Forall₂ S xs ys := by
  have known : List.Forall₂ (fun x y => (∀ y, R x y → S x y) ∧ R x y) xs ys :=
    (List.forall₂_and_left xs ys).mpr ⟨step, agree⟩
  exact known.imp fun x y pair => pair.1 y pair.2

theorem forall₂_imp_of_getElem?
    (step : ∀ (index : Nat) x y, xs[index]? = some x → ys[index]? = some y → R x y → S x y)
    (agree : List.Forall₂ R xs ys) : List.Forall₂ S xs ys := by
  induction agree with
  | nil => exact .nil
  | cons first _ ih => exact .cons (step 0 _ _ rfl rfl first) (ih fun index => step (index + 1))

theorem forall₂_congr_of_mem (same : ∀ x ∈ xs, ∀ y, R x y ↔ S x y) :
    List.Forall₂ R xs ys ↔ List.Forall₂ S xs ys :=
  ⟨forall₂_imp_of_mem fun x member y => (same x member y).mp,
    forall₂_imp_of_mem fun x member y => (same x member y).mpr⟩

/-- Agreement at every index, beyond the ends too, so that the lists are equally long. -/
theorem forall₂_iff_getElem? :
    List.Forall₂ R xs ys ↔ ∀ index : Nat, Option.Rel R xs[index]? ys[index]? := by
  constructor
  · intro agree
    induction agree with
    | nil => exact fun _ => .none
    | cons first _ ih =>
      rintro (_ | index)
      · exact .some first
      · exact ih index
  · intro agree
    induction xs generalizing ys with
    | nil =>
      cases ys with
      | nil => exact .nil
      | cons y ys => nomatch agree 0
    | cons x xs ih =>
      cases ys with
      | nil => nomatch agree 0
      | cons y ys =>
        have first : Option.Rel R (some x) (some y) := agree 0
        cases first with
        | some same => exact .cons same (ih fun index => agree (index + 1))

/-- Lists that differ at most at one place agree as far as they agree there. -/
theorem forall₂_around_iff {R : α → α → Prop} (refl : ∀ x, R x x) (front back : List α) {x y : α} :
    List.Forall₂ R (front ++ x :: back) (front ++ y :: back) ↔ R x y := by
  induction front with
  | nil =>
    rw [List.nil_append, List.nil_append, List.forall₂_cons, List.forall₂_same]
    exact and_iff_left fun z _ => refl z
  | cons z front ih =>
    rw [List.cons_append, List.cons_append, List.forall₂_cons, ih]
    exact and_iff_right (refl z)

section Option
variable {γ : Type} {here : Option α} {there : Option β}

theorem optionRel_imp (step : ∀ x y, R x y → S x y) (agree : Option.Rel R here there) :
    Option.Rel S here there := by
  cases agree with
  | none => exact .none
  | some same => exact .some (step _ _ same)

theorem map_eq_map_of_optionRel {f : α → γ} {g : β → γ} (step : ∀ x y, R x y → f x = g y)
    (agree : Option.Rel R here there) : here.map f = there.map g := by
  cases agree with
  | none => rfl
  | some same => exact congrArg some (step _ _ same)

theorem exists_of_optionRel_some {x : α} (agree : Option.Rel R (some x) there) : ∃ y, there = some y ∧ R x y := by
  cases agree with
  | some same => exact ⟨_, rfl, same⟩

end Option
end MarkupTree
