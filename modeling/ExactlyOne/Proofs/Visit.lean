import ExactlyOne.Proofs.Route

/-!
# The visits of a template lie on routes

`Template.visitsOf` comes to a value of a registered type either at once or, where lists are in
the way, at the values on the routes through them. No visit is off a route, and no route that ends
in an object of a registered type is without one.
-/
namespace ExactlyOne

namespace Template

open Property

variable {catalog : Catalog} {due : Bool} {type : String} {location : Location}
  {position : Nat} {visit : Visit}

/-! ## Membership -/

theorem visitsOfItems_eq_flatMap (items : List Property) :
    visitsOfItems catalog due type location position items =
      (items.zipIdx position).flatMap fun (item, i) =>
        visitsOf catalog due type (location.index i) item := by
  induction items generalizing position with
  | nil => simp [visitsOfItems]
  | cons item rest ih => simp [visitsOfItems, ih]

theorem visitsOfEntries_eq_flatMap (entries : List (String × Property)) :
    visitsOfEntries catalog type location entries = entries.flatMap fun (key, value) =>
      visitsOf catalog (catalog.hasPropertyType (nestedType type key)) (nestedType type key)
        (location.key key) value := by
  induction entries with
  | nil => simp [visitsOfEntries]
  | cons entry rest ih => simp [visitsOfEntries, ih]

theorem mem_visitsOfItems {items : List Property} :
    visit ∈ visitsOfItems catalog due type location position items ↔
      ∃ i item, items[i]? = some item ∧
        visit ∈ visitsOf catalog due type (location.index (position + i)) item := by
  rw [visitsOfItems_eq_flatMap, List.mem_flatMap]
  constructor
  · rintro ⟨⟨item, i⟩, hi, h⟩
    obtain ⟨hle, hi⟩ := List.mk_mem_zipIdx_iff_le_and_getElem?_sub.mp hi
    exact ⟨i - position, item, hi, by rwa [Nat.add_sub_cancel' hle]⟩
  · rintro ⟨i, item, hi, h⟩
    refine ⟨(item, position + i), ?_, h⟩
    rw [List.mk_mem_zipIdx_iff_le_and_getElem?_sub, Nat.add_sub_cancel_left]
    exact ⟨Nat.le_add_right _ _, hi⟩

theorem mem_visitsOfEntries {entries : List (String × Property)} :
    visit ∈ visitsOfEntries catalog type location entries ↔
      ∃ key value, (key, value) ∈ entries ∧
        visit ∈ visitsOf catalog (catalog.hasPropertyType (nestedType type key))
          (nestedType type key) (location.key key) value := by
  simp [visitsOfEntries_eq_flatMap]

theorem mem_visitsOf_object {entries : List (String × Property)} :
    visit ∈ visitsOf catalog due type location (.object entries) ↔
      (due = true ∧ visit = .nested type (.object entries) location) ∨
      visit ∈ visitsOfEntries catalog type location entries := by
  cases due <;> simp [visitsOf]

theorem mem_visitsOfBranch {branch : Option Property} :
    visit ∈ visitsOfBranch catalog due type location branch ↔
      ∃ value, branch = some value ∧ visit ∈ visitsOf catalog due type location value := by
  cases branch <;> simp [visitsOfBranch]

theorem mem_visitsOf_conditional {condition : Option String} {whenTrue whenFalse : Option Property}
    {arity : Nat} :
    visit ∈ visitsOf catalog due type location
        (.conditional condition whenTrue whenFalse arity) ↔
      (due = true ∧ hasListBranch whenTrue whenFalse = false ∧
        visit = .nested type (.conditional condition whenTrue whenFalse arity) location) ∨
      ∃ outcome value, branch? outcome whenTrue whenFalse = some value ∧
        visit ∈ visitsOf catalog (due && hasListBranch whenTrue whenFalse) type
          (location.branch outcome) value := by
  simp only [visitsOf, List.mem_append, mem_visitsOfBranch]
  constructor
  · rintro ((h | ⟨value, hb, h⟩) | ⟨value, hb, h⟩)
    · cases due <;> cases hl : hasListBranch whenTrue whenFalse <;> simp [hl] at h
      exact Or.inl ⟨rfl, rfl, h⟩
    · exact Or.inr ⟨true, value, hb, h⟩
    · exact Or.inr ⟨false, value, hb, h⟩
  · rintro (⟨rfl, hl, rfl⟩ | ⟨outcome, value, hb, h⟩)
    · simp [hl]
    · cases outcome
      · exact Or.inr ⟨value, hb, h⟩
      · exact Or.inl (Or.inr ⟨value, hb, h⟩)

/-! ## Routes -/

theorem exists_route_of_mem_visitsOf {value : Property}
    (h : visit ∈ visitsOf catalog due type location value) :
    ∃ steps v, Leads value steps v ∧
      visit = .nested (typeAlong type steps) v (location.follow steps) := by
  induction value using Property.induction_branches generalizing due type location with
  | scalar v =>
    cases due <;> simp [visitsOf] at h
    exact ⟨[], _, .here _, h⟩
  | removed => simp [visitsOf] at h
  | list items ih =>
    obtain ⟨i, item, hi, h⟩ := mem_visitsOfItems.mp h
    rw [Nat.zero_add] at h
    obtain ⟨steps, v, hl, rfl⟩ := ih item (List.mem_of_getElem? hi) h
    exact ⟨.index i :: steps, v, .index hi hl, rfl⟩
  | object entries ih =>
    rcases mem_visitsOf_object.mp h with ⟨-, rfl⟩ | h
    · exact ⟨[], _, .here _, rfl⟩
    · obtain ⟨key, value, hm, h⟩ := mem_visitsOfEntries.mp h
      obtain ⟨steps, v, hl, rfl⟩ := ih (key, value) hm h
      exact ⟨.key key :: steps, v, .key hm hl, rfl⟩
  | conditional condition whenTrue whenFalse arity ih =>
    rcases mem_visitsOf_conditional.mp h with ⟨-, -, rfl⟩ | ⟨outcome, value, hb, h⟩
    · exact ⟨[], _, .here _, rfl⟩
    · obtain ⟨steps, v, hl, rfl⟩ := ih outcome value hb h
      exact ⟨_ :: steps, v, .branch hb hl, rfl⟩

theorem hasListBranch_of_mem_visitsOf {value : Property} {condition : Option String}
    {whenTrue whenFalse : Option Property} {arity : Nat} {type' : String} {place : Location}
    (h : .nested type' (.conditional condition whenTrue whenFalse arity) place ∈
      visitsOf catalog due type location value) :
    hasListBranch whenTrue whenFalse = false := by
  induction value using Property.induction_branches generalizing due type location with
  | scalar v => cases due <;> simp [visitsOf] at h
  | removed => simp [visitsOf] at h
  | list items ih =>
    obtain ⟨i, item, hi, h⟩ := mem_visitsOfItems.mp h
    exact ih item (List.mem_of_getElem? hi) h
  | object entries ih =>
    rcases mem_visitsOf_object.mp h with ⟨-, he⟩ | h
    · simp at he
    · obtain ⟨key, value, hm, h⟩ := mem_visitsOfEntries.mp h
      exact ih (key, value) hm h
  | conditional condition' whenTrue' whenFalse' arity' ih =>
    rcases mem_visitsOf_conditional.mp h with ⟨-, hl, he⟩ | ⟨outcome, value, hb, h⟩
    · cases he
      exact hl
    · exact ih outcome value hb h

theorem exists_due_of_leads {value o : Property} {steps : List Step} (h : Leads value steps o)
    (catalog : Catalog) (due : Bool) (type : String) (location : Location) :
    ∃ due', ∀ visit ∈ visitsOf catalog due' (typeAlong type steps) (location.follow steps) o,
      visit ∈ visitsOf catalog due type location value := by
  induction h generalizing due type location with
  | here => exact ⟨due, fun visit hv => hv⟩
  | @key entries name w rest o hm _ ih =>
    obtain ⟨due', h⟩ := ih (catalog.hasPropertyType (nestedType type name)) (nestedType type name)
      (location.key name)
    exact ⟨due', fun visit hv => mem_visitsOf_object.mpr
      (Or.inr (mem_visitsOfEntries.mpr ⟨name, w, hm, h visit hv⟩))⟩
  | @index items i w rest o hi _ ih =>
    obtain ⟨due', h⟩ := ih due type (location.index i)
    refine ⟨due', fun visit hv => mem_visitsOfItems.mpr ⟨i, w, hi, ?_⟩⟩
    rw [Nat.zero_add]
    exact h visit hv
  | @branch condition whenTrue whenFalse arity outcome w rest o hb _ ih =>
    obtain ⟨due', h⟩ := ih (due && hasListBranch whenTrue whenFalse) type
      (location.branch outcome)
    exact ⟨due', fun visit hv => mem_visitsOf_conditional.mpr
      (Or.inr ⟨outcome, w, hb, h visit hv⟩)⟩

/-- A visit on a route: it is at a value that the route passes behind its last key. -/
structure VisitOn (visits : List Visit) (type : String) (location : Location) (value o : Property)
    (before after : List Step) (v : Property) : Prop where
  reached : Leads value before v
  beyond : Leads v after o
  keyless : Step.Keyless after
  visited : .nested (typeAlong type (before ++ after)) v (location.follow before) ∈ visits

/-- A route to an object of a registered type has a visit on it. If the route has no key, the
start must be due. -/
theorem exists_visitOn (catalog : Catalog) (due : Bool) (type : String) (location : Location)
    {value o : Property} {steps : List Step} (h : Leads value steps o)
    (ho : ∃ entries, o = .object entries)
    (hkey : (∃ step ∈ steps, step.isKey = true) →
      catalog.hasPropertyType (typeAlong type steps) = true)
    (hdue : Step.Keyless steps → due = true) :
    ∃ before after v, steps = before ++ after ∧
      VisitOn (visitsOf catalog due type location value) type location value o before after v := by
  induction h generalizing due type location with
  | here =>
    obtain ⟨entries, rfl⟩ := ho
    have hd := hdue (by simp [Step.Keyless])
    refine ⟨[], [], _, rfl, .here _, .here _, by simp [Step.Keyless], ?_⟩
    exact mem_visitsOf_object.mpr (Or.inl ⟨hd, rfl⟩)
  | @key entries name w rest o hm hl ih =>
    have hreg := hkey ⟨_, List.mem_cons_self, rfl⟩
    obtain ⟨before, after, v, rfl, hv⟩ := ih
      (catalog.hasPropertyType (nestedType type name)) (nestedType type name) (location.key name) ho
      (fun _ => hreg) (fun hk => by rwa [typeAlong, typeAlong_keyless hk] at hreg)
    refine ⟨.key name :: before, after, v, rfl, .key hm hv.reached, hv.beyond, hv.keyless, ?_⟩
    exact mem_visitsOf_object.mpr (Or.inr (mem_visitsOfEntries.mpr ⟨name, w, hm, hv.visited⟩))
  | @index items i w rest o hi hl ih =>
    obtain ⟨before, after, v, rfl, hv⟩ := ih due type (location.index i) ho
      (fun ⟨s, hs, hk⟩ => hkey ⟨s, List.mem_cons_of_mem _ hs, hk⟩)
      (fun hk => hdue (hk.cons rfl))
    refine ⟨.index i :: before, after, v, rfl, .index hi hv.reached, hv.beyond, hv.keyless, ?_⟩
    refine mem_visitsOfItems.mpr ⟨i, w, hi, ?_⟩
    rw [Nat.zero_add]
    exact hv.visited
  | @branch condition whenTrue whenFalse arity outcome w rest o hb hl ih =>
    by_cases hhere : Step.Keyless rest ∧ hasListBranch whenTrue whenFalse = false
    · -- No list in the branches and no key further on: the conditional itself is visited.
      have hk : Step.Keyless
          (.branch (condition? condition whenTrue whenFalse arity) outcome :: rest) :=
        hhere.1.cons rfl
      refine ⟨[], _, _, rfl, .here _, .branch hb hl, hk, ?_⟩
      rw [List.nil_append, typeAlong_keyless hk]
      exact mem_visitsOf_conditional.mpr (Or.inl ⟨hdue hk, hhere.2, rfl⟩)
    · obtain ⟨before, after, v, rfl, hv⟩ := ih
        (due && hasListBranch whenTrue whenFalse) type (location.branch outcome) ho
        (fun ⟨s, hs, hk⟩ => hkey ⟨s, List.mem_cons_of_mem _ hs, hk⟩)
        (fun hk => by
          cases hlist : hasListBranch whenTrue whenFalse
          · exact absurd ⟨hk, hlist⟩ hhere
          · simp [hdue (hk.cons rfl)])
      refine ⟨_ :: before, after, v, rfl, .branch hb hv.reached, hv.beyond, hv.keyless, ?_⟩
      exact mem_visitsOf_conditional.mpr (Or.inr ⟨outcome, w, hb, hv.visited⟩)

/-! ## Below a value its own type is not visited again -/

section

variable {type' : String} {place : Location} {value v : Property}

theorem length_lt_of_mem_visitsOfEntries {entries : List (String × Property)}
    (h : .nested type' v place ∈ visitsOfEntries catalog type location entries) :
    type.length < type'.length := by
  obtain ⟨key, w, -, h⟩ := mem_visitsOfEntries.mp h
  obtain ⟨steps, o, -, he⟩ := exists_route_of_mem_visitsOf h
  cases he
  refine Nat.lt_of_lt_of_le ?_ (length_typeAlong (nestedType type key) steps)
  have hdot : ".".length = 1 := rfl
  simp only [nestedType, String.length_append, hdot]
  omega

theorem length_lt_of_not_due (h : .nested type' v place ∈
    visitsOf catalog false type location value) : type.length < type'.length := by
  induction value using Property.induction_branches generalizing location with
  | scalar w => simp [visitsOf] at h
  | removed => simp [visitsOf] at h
  | list items ih =>
    obtain ⟨i, item, hi, h⟩ := mem_visitsOfItems.mp h
    exact ih item (List.mem_of_getElem? hi) h
  | object entries ih =>
    rcases mem_visitsOf_object.mp h with ⟨hd, -⟩ | h
    · cases hd
    · exact length_lt_of_mem_visitsOfEntries h
  | conditional condition whenTrue whenFalse arity ih =>
    rcases mem_visitsOf_conditional.mp h with ⟨hd, -, -⟩ | ⟨outcome, w, hb, h⟩
    · cases hd
    · exact ih outcome w hb h

end

/-! ## Findings -/

structure IsResource (template : Json) (name type : String) (resource : Json) : Prop where
  listed : ∃ resources, (template.get? "Resources").bind Json.entries? = some resources ∧
    (name, resource) ∈ resources
  typed : (resource.get? "Type").bind Json.text? = some type

variable {limits : Limits} {template : Json} {name : String} {resource : Json} {finding : Finding}

theorem IsResource.mem_visits (h : IsResource template name type resource)
    (hv : visit ∈ .resource name type (propertiesOf resource) ::
      visitsOf catalog false type (propertiesLocation name) (propertiesOf resource)) :
    visit ∈ visits catalog template := by
  obtain ⟨resources, hr, hm⟩ := h.listed
  simp only [visits, hr, List.mem_flatMap]
  refine ⟨_, hm, ?_⟩
  simpa only [visitsOfResource, h.typed] using hv

theorem mem_findings : finding ∈ findings limits catalog template ↔
    ∃ visit ∈ visits catalog template, finding ∈ visit.findings limits catalog :=
  List.mem_flatMap

theorem mem_findings_nested {type : String} {v : Property} {group : List String}
    (hv : .nested type v location ∈ visits catalog template)
    (hg : group ∈ catalog.propertyGroups type)
    (hf : finding ∈ v.checkGroup limits location group) :
    finding ∈ findings limits catalog template :=
  mem_findings.mpr ⟨_, hv, List.mem_flatMap.mpr ⟨group, hg, hf⟩⟩

theorem IsResource.mem_findings (h : IsResource template name type resource)
    {group : List String} (hg : group ∈ catalog.resourceGroups type)
    (hf : finding ∈ (propertiesOf resource).checkGroup limits (propertiesLocation name) group) :
    finding ∈ findings limits catalog template :=
  Template.mem_findings.mpr
    ⟨_, h.mem_visits List.mem_cons_self, List.mem_flatMap.mpr ⟨group, hg, hf⟩⟩

/-- A visit is to a resource with a type or below it, or it only says what is not there. -/
theorem mem_visits_cases (h : visit ∈ visits catalog template) :
    visit = .noResources ∨ (∃ name, visit = .untypedResource name) ∨
    ∃ name type resource, IsResource template name type resource ∧
      visit ∈ .resource name type (propertiesOf resource) ::
        visitsOf catalog false type (propertiesLocation name) (propertiesOf resource) := by
  cases hr : (template.get? "Resources").bind Json.entries? with
  | none =>
    simp only [visits, hr, List.mem_singleton] at h
    exact Or.inl h
  | some resources =>
    simp only [visits, hr, List.mem_flatMap] at h
    obtain ⟨⟨name, resource⟩, hm, hv⟩ := h
    cases ht : (resource.get? "Type").bind Json.text? with
    | none =>
      simp only [visitsOfResource, ht, List.mem_singleton] at hv
      exact Or.inr (Or.inl ⟨name, hv⟩)
    | some type =>
      simp only [visitsOfResource, ht] at hv
      exact Or.inr (Or.inr ⟨name, type, resource, ⟨⟨resources, hr, hm⟩, ht⟩, hv⟩)

/-- Every finding comes from checking one group at the end of a route. -/
theorem exists_check_of_mem_findings (h : finding ∈ findings limits catalog template) :
    ∃ name type resource steps v group, IsResource template name type resource ∧
      Leads (propertiesOf resource) steps v ∧
      finding ∈ v.checkGroup limits ((propertiesLocation name).follow steps) group := by
  obtain ⟨visit, hv, hf⟩ := mem_findings.mp h
  rcases mem_visits_cases hv with rfl | ⟨name, rfl⟩ | ⟨name, type, resource, hi, hv⟩
  · simp [Visit.findings] at hf
  · simp [Visit.findings] at hf
  · rcases List.mem_cons.mp hv with rfl | hv
    · obtain ⟨group, -, hf⟩ := List.mem_flatMap.mp hf
      exact ⟨name, type, resource, [], _, group, hi, .here _, hf⟩
    · obtain ⟨steps, v, hl, rfl⟩ := exists_route_of_mem_visitsOf hv
      obtain ⟨group, -, hf⟩ := List.mem_flatMap.mp hf
      exact ⟨name, type, resource, steps, v, group, hi, hl, hf⟩

end Template

end ExactlyOne
