import Mathlib.Data.List.Perm.Basic
import ExactlyOne.Proofs.Traversal
import ExactlyOne.Proofs.Verdict

/-!
# Values whose keys come in another order

Two values are rearranged if they differ in the order of the entries of some of their objects, at
any depth. An assignment sees no difference: it goes along the same routes in both, it meets the
same conditions, and it leaves the same keys. Only the order in which it does so may differ.
-/
namespace ExactlyOne

namespace Property

variable {σ : Assignment}

/-- The second value is the first one with the entries of any of its objects permuted. -/
inductive Rearranged : Property → Property → Prop where
  | refl (v) : Rearranged v v
  | trans {u v w} : Rearranged u v → Rearranged v w → Rearranged u w
  | entries {es fs} : es.Perm fs → Rearranged (.object es) (.object fs)
  | entry (before after) (key : String) {v w} : Rearranged v w →
      Rearranged (.object (before ++ (key, v) :: after)) (.object (before ++ (key, w) :: after))
  | item (before after) {v w} : Rearranged v w →
      Rearranged (.list (before ++ v :: after)) (.list (before ++ w :: after))
  | whenTrue (condition whenFalse arity) {v w} : Rearranged v w →
      Rearranged (.conditional condition (some v) whenFalse arity)
        (.conditional condition (some w) whenFalse arity)
  | whenFalse (condition whenTrue arity) {v w} : Rearranged v w →
      Rearranged (.conditional condition whenTrue (some v) arity)
        (.conditional condition whenTrue (some w) arity)

namespace Rearranged

variable {v w : Property}

theorem symm (h : Rearranged v w) : Rearranged w v := by
  induction h with
  | refl v => exact .refl v
  | trans _ _ ih ih' => exact ih'.trans ih
  | entries hp => exact .entries hp.symm
  | entry before after key _ ih => exact ih.entry before after key
  | item before after _ ih => exact ih.item before after
  | whenTrue condition whenFalse arity _ ih => exact ih.whenTrue condition whenFalse arity
  | whenFalse condition whenTrue arity _ ih => exact ih.whenFalse condition whenTrue arity

theorem malformed_congr {condition : Option String} {whenTrue whenFalse whenTrue' whenFalse' :
    Option Property} {arity : Nat} (hm : Malformed condition whenTrue whenFalse arity)
    (ht : whenTrue.isSome = whenTrue'.isSome) (hf : whenFalse.isSome = whenFalse'.isSome) :
    Malformed condition whenTrue' whenFalse' arity := by
  rintro c t f hc rfl rfl hn
  obtain ⟨t', rfl⟩ := Option.isSome_iff_exists.mp ht
  obtain ⟨f', rfl⟩ := Option.isSome_iff_exists.mp hf
  exact hm c t' f' hc rfl rfl hn

/-- Induction that speaks of both branches of a well-formed conditional at once, and keeps the
malformed ones apart. -/
@[elab_as_elim]
theorem induction {motive : ∀ v w, Rearranged v w → Prop}
    (refl : ∀ v, motive v v (.refl v))
    (trans : ∀ u v w (h : Rearranged u v) (k : Rearranged v w), motive u v h → motive v w k →
      motive u w (h.trans k))
    (entries : ∀ es fs (hp : es.Perm fs), motive (.object es) (.object fs) (.entries hp))
    (entry : ∀ before after key v w (h : Rearranged v w), motive v w h →
      motive (.object (before ++ (key, v) :: after)) (.object (before ++ (key, w) :: after))
        (h.entry before after key))
    (item : ∀ before after v w (h : Rearranged v w), motive v w h →
      motive (.list (before ++ v :: after)) (.list (before ++ w :: after))
        (h.item before after))
    (choice : ∀ c t f t' f' (h : Rearranged (choice c t f) (choice c t' f')),
      (∀ b, ∃ hb, motive (branchFor b t f) (branchFor b t' f') hb) →
      motive (choice c t f) (choice c t' f') h)
    (malformed : ∀ condition whenTrue whenFalse whenTrue' whenFalse' arity
      (h : Rearranged (.conditional condition whenTrue whenFalse arity)
        (.conditional condition whenTrue' whenFalse' arity)),
      whenTrue.isSome = whenTrue'.isSome →
      Malformed condition whenTrue whenFalse arity →
      Malformed condition whenTrue' whenFalse' arity →
      motive (.conditional condition whenTrue whenFalse arity)
        (.conditional condition whenTrue' whenFalse' arity) h)
    {v w : Property} (h : Rearranged v w) : motive v w h := by
  induction h with
  | refl v => exact refl v
  | trans h k ih ih' => exact trans _ _ _ h k ih ih'
  | entries hp => exact entries _ _ hp
  | entry before after key h ih => exact entry before after key _ _ h ih
  | item before after h ih => exact item before after _ _ h ih
  | @whenTrue condition whenFalse arity v w h ih =>
    rcases choice_or_malformed condition (some v) whenFalse arity with hc | hm
    · obtain ⟨c, t, f, rfl, ht, rfl, rfl⟩ := hc
      obtain rfl := Option.some.inj ht
      refine choice c v f w f (h.whenTrue ..) fun b => ?_
      cases b
      · exact ⟨_, refl f⟩
      · exact ⟨h, ih⟩
    · have hm' : Malformed condition (some w) whenFalse arity := malformed_congr hm rfl rfl
      exact malformed _ _ _ _ _ _ (h.whenTrue ..) rfl hm hm'
  | @whenFalse condition whenTrue arity v w h ih =>
    rcases choice_or_malformed condition whenTrue (some v) arity with hc | hm
    · obtain ⟨c, t, f, rfl, rfl, hf, rfl⟩ := hc
      obtain rfl := Option.some.inj hf
      refine choice c t v t w (h.whenFalse ..) fun b => ?_
      cases b
      · exact ⟨h, ih⟩
      · exact ⟨_, refl t⟩
    · have hm' : Malformed condition whenTrue (some w) arity := malformed_congr hm rfl rfl
      exact malformed _ _ _ _ _ _ (h.whenFalse ..) rfl hm hm'

/-! ## What an assignment makes of them -/

theorem isSome_evaluate (h : Rearranged v w) : (evaluate σ v).isSome = (evaluate σ w).isSome := by
  induction h using Rearranged.induction with
  | refl v => rfl
  | trans u v w _ _ ih ih' => exact ih.trans ih'
  | entries es fs _ => simp only [evaluate, Option.isSome_some]
  | entry before after key v w _ _ => simp only [evaluate, Option.isSome_some]
  | item before after v w _ _ => simp only [evaluate, Option.isSome_some]
  | choice c t f t' f' _ ih =>
    obtain ⟨-, ih⟩ := ih (σ c)
    rw [evaluate_choice, evaluate_choice, ih]
  | malformed condition whenTrue whenFalse whenTrue' whenFalse' arity _ _ hm hm' =>
    rw [evaluate_malformed hm, evaluate_malformed hm', Option.isSome_some, Option.isSome_some]

theorem mem_conditionsMet (h : Rearranged v w) {d : String} :
    d ∈ conditionsMet σ v ↔ d ∈ conditionsMet σ w := by
  induction h using Rearranged.induction with
  | refl v => rfl
  | trans u v w _ _ ih ih' => exact ih.trans ih'
  | entries es fs hp => simp only [conditionsMet, mem_conditionsMetEntries, hp.mem_iff]
  | entry before after key v w _ ih =>
    simp only [conditionsMet, mem_conditionsMetEntries, List.mem_append, List.mem_cons,
      or_and_right, exists_or, exists_eq_left, ih]
  | item before after v w _ ih =>
    simp only [conditionsMet, mem_conditionsMetItems, List.mem_append, List.mem_cons,
      or_and_right, exists_or, exists_eq_left, ih]
  | choice c t f t' f' _ ih =>
    obtain ⟨-, ih⟩ := ih (σ c)
    simp only [conditionsMet_choice, List.mem_cons, ih]
  | malformed condition whenTrue whenFalse whenTrue' whenFalse' arity _ _ hm hm' =>
    rw [conditionsMet_malformed hm, conditionsMet_malformed hm']

/-! ## The object and where it is -/

theorem selected (h : Rearranged v w) : Rearranged (selected σ v) (selected σ w) := by
  induction h using Rearranged.induction with
  | refl v => exact .refl _
  | trans u v w _ _ ih ih' => exact ih.trans ih'
  | entries es fs hp => exact .entries hp
  | entry before after key v w h _ => exact h.entry before after key
  | item before after v w h _ => exact h.item before after
  | choice c t f t' f' _ ih =>
    obtain ⟨-, ih⟩ := ih (σ c)
    rwa [selected_choice, selected_choice]
  | malformed condition whenTrue whenFalse whenTrue' whenFalse' arity h _ hm hm' =>
    rwa [selected_malformed hm, selected_malformed hm']

theorem selectedLocation_eq (h : Rearranged v w) (location : Location) :
    selectedLocation σ location v = selectedLocation σ location w := by
  induction h using Rearranged.induction generalizing location with
  | refl v => rfl
  | trans u v w _ _ ih ih' => exact (ih location).trans (ih' location)
  | entries es fs _ => rfl
  | entry before after key v w _ _ => rfl
  | item before after v w _ _ => rfl
  | choice c t f t' f' _ ih =>
    obtain ⟨-, ih⟩ := ih (σ c)
    rw [selectedLocation_choice, selectedLocation_choice, ih]
  | malformed condition whenTrue whenFalse whenTrue' whenFalse' arity _ _ hm hm' =>
    rw [selectedLocation_malformed hm, selectedLocation_malformed hm']

theorem chainConditions_eq (h : Rearranged v w) :
    chainConditions σ v = chainConditions σ w := by
  induction h using Rearranged.induction with
  | refl v => rfl
  | trans u v w _ _ ih ih' => exact ih.trans ih'
  | entries es fs _ => rfl
  | entry before after key v w _ _ => rfl
  | item before after v w _ _ => rfl
  | choice c t f t' f' _ ih =>
    obtain ⟨-, ih⟩ := ih (σ c)
    rw [chainConditions_choice, chainConditions_choice, ih]
  | malformed condition whenTrue whenFalse whenTrue' whenFalse' arity _ _ hm hm' =>
    rw [chainConditions_malformed hm, chainConditions_malformed hm']

theorem mem_middle_cases {before after : List (String × Property)} {key key' : String}
    {x : Property} (h : (key', x) ∈ before ++ (key, v) :: after) :
    (key' = key ∧ x = v) ∨ ∀ w, (key', x) ∈ before ++ (key, w) :: after := by
  rcases List.mem_append.mp h with h | h
  · exact Or.inr fun w => List.mem_append_left _ h
  · rcases List.mem_cons.mp h with h | h
    · exact Or.inl (Prod.mk.inj h)
    · exact Or.inr fun w => List.mem_append_right _ (List.mem_cons_of_mem _ h)

theorem getElem?_middle_cases {before after : List Property} {x : Property} {i : Nat}
    (h : (before ++ v :: after)[i]? = some x) :
    (i = before.length ∧ x = v) ∨ ∀ w, (before ++ w :: after)[i]? = some x := by
  by_cases hi : i = before.length
  · subst hi
    exact Or.inl ⟨rfl, by simpa using h.symm⟩
  · refine Or.inr fun w => ?_
    rw [← h]
    simp only [List.getElem?_append, List.getElem?_cons]
    grind

theorem exists_entry (h : Rearranged v w) {es : List (String × Property)} (hv : v = .object es) :
    ∃ fs, w = .object fs ∧ ∀ key x, (key, x) ∈ es → ∃ y, (key, y) ∈ fs ∧ Rearranged x y := by
  induction h using Rearranged.induction generalizing es with
  | refl v => exact ⟨es, hv, fun key x hx => ⟨x, hx, .refl x⟩⟩
  | trans u v w _ _ ih ih' =>
    obtain ⟨fs, hf, hes⟩ := ih hv
    obtain ⟨gs, hg, hfs⟩ := ih' hf
    refine ⟨gs, hg, fun key x hx => ?_⟩
    obtain ⟨y, hy, hxy⟩ := hes key x hx
    obtain ⟨z, hz, hyz⟩ := hfs key y hy
    exact ⟨z, hz, hxy.trans hyz⟩
  | entries es' fs hp =>
    obtain rfl := object.inj hv
    exact ⟨fs, rfl, fun key x hx => ⟨x, hp.mem_iff.mp hx, .refl x⟩⟩
  | entry before after key v w hvw _ =>
    obtain rfl := object.inj hv
    refine ⟨_, rfl, fun key' x hx => ?_⟩
    rcases mem_middle_cases hx with ⟨rfl, rfl⟩ | hx
    · exact ⟨w, by simp, hvw⟩
    · exact ⟨x, hx w, .refl x⟩
  | item => cases hv
  | choice => cases hv
  | malformed => cases hv

theorem eq_empty (h : Rearranged v w) (hv : v = .object []) : w = .object [] := by
  obtain ⟨fs, rfl, -⟩ := h.exists_entry hv
  obtain ⟨es, he, hfs⟩ := h.symm.exists_entry rfl
  obtain rfl : es = [] := object.inj (he.symm.trans hv)
  cases fs with
  | nil => rfl
  | cons f rest =>
    obtain ⟨y, hy, -⟩ := hfs f.1 f.2 List.mem_cons_self
    simp at hy

/-! ## Routes and flaws -/

theorem reaches (h : Rearranged v w) {steps : List Step} {o : Property}
    (hr : Reaches σ v steps o) : ∃ o', Reaches σ w steps o' ∧ Rearranged o o' := by
  induction h using Rearranged.induction generalizing steps o with
  | refl v => exact ⟨o, hr, .refl o⟩
  | trans u v w _ _ ih ih' =>
    obtain ⟨o', hr', ho⟩ := ih hr
    obtain ⟨o'', hr'', ho'⟩ := ih' hr'
    exact ⟨o'', hr'', ho.trans ho'⟩
  | entries es fs hp =>
    rcases hr.object_cases with ⟨rfl, rfl⟩ | ⟨key, x, rest, hm, rfl, hrest⟩
    · exact ⟨_, .here _ _, .entries hp⟩
    · exact ⟨o, hrest.entry (hp.mem_iff.mp hm), .refl o⟩
  | entry before after key v w h ih =>
    rcases hr.object_cases with ⟨rfl, rfl⟩ | ⟨key', x, rest, hm, rfl, hrest⟩
    · exact ⟨_, .here _ _, h.entry before after key⟩
    · rcases mem_middle_cases hm with ⟨rfl, rfl⟩ | hm
      · obtain ⟨o', hr', ho⟩ := ih hrest
        exact ⟨o', hr'.entry (by simp), ho⟩
      · exact ⟨o, hrest.entry (hm w), .refl o⟩
  | item before after v w h ih =>
    rcases hr.list_cases with ⟨rfl, rfl⟩ | ⟨i, x, rest, hi, rfl, hrest⟩
    · exact ⟨_, .here _ _, h.item before after⟩
    · rcases getElem?_middle_cases hi with ⟨rfl, rfl⟩ | hi
      · obtain ⟨o', hr', ho⟩ := ih hrest
        exact ⟨o', hr'.item (by simp), ho⟩
      · exact ⟨o, hrest.item (hi w), .refl o⟩
  | choice c t f t' f' h ih =>
    rcases hr.choice_cases with ⟨rfl, rfl⟩ | ⟨rest, rfl, hrest⟩
    · exact ⟨_, .here _ _, h⟩
    · obtain ⟨-, ih⟩ := ih (σ c)
      obtain ⟨o', hr', ho⟩ := ih hrest
      exact ⟨o', hr'.choice, ho⟩
  | malformed condition whenTrue whenFalse whenTrue' whenFalse' arity h _ hm _ =>
    obtain ⟨rfl, rfl⟩ := hr.malformed_cases hm
    exact ⟨_, .here _ _, h⟩

theorem meets (h : Rearranged v w) {group : List String} {steps : List Step} {o : Property}
    (hm : MeetsUnder σ group v steps o) :
    ∃ o', MeetsUnder σ group w steps o' ∧ Rearranged o o' := by
  obtain ⟨o', hr, ho⟩ := h.reaches hm.toReaches
  exact ⟨o', ⟨hr, hm.inFocus⟩, ho⟩

theorem flawed (h : Rearranged v w) {around : Bool} {flaw : Flaw} (hf : Flawed around v flaw) :
    Flawed around w flaw := by
  induction h using Rearranged.induction with
  | refl v => exact hf
  | trans u v w _ _ ih ih' => exact ih' (ih hf)
  | entries => cases hf
  | entry => cases hf
  | item before after v w _ _ =>
    cases hf with
    | list items ha => exact .list _ ha
  | choice c t f t' f' _ _ =>
    cases hf with
    | malformed hp => simp [parts_choice] at hp
  | malformed condition whenTrue whenFalse whenTrue' whenFalse' arity _ hsome hm hm' =>
    cases hf with
    | malformed hp =>
      obtain ⟨-, rfl⟩ := parts_eq_error_iff.mp hp
      have hn : whenTrue.isNone = whenTrue'.isNone := by
        rw [← Option.not_isSome, ← Option.not_isSome, hsome]
      exact .malformed (parts_eq_error_iff.mpr ⟨hm', by simp only [malformation, hn]⟩)

end Rearranged

end Property

end ExactlyOne
