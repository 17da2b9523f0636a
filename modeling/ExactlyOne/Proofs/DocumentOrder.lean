import ExactlyOne.Proofs.Place
import ExactlyOne.Proofs.Separation

/-!
# Checks go through a document in its order

A location comes before another one if it is above it, or if the two part at a value of the document
and the first one goes on with an earlier member or element. The checks of a template are made in
this order, so that no location is checked twice. Violations follow the order of their checks, and
no violation is found twice unless a type has a group twice.
-/
namespace ExactlyOne

/-- The lower location is the upper one or a place below it. -/
def Location.Covers (upper lower : Location) : Prop := upper.segments <+: lower.segments

namespace Location

variable {a b c : Location} {segment : Segment}

theorem Covers.refl (a : Location) : a.Covers a := List.prefix_rfl

theorem Covers.trans (h : a.Covers b) (k : b.Covers c) : a.Covers c := List.IsPrefix.trans h k

theorem covers_child (a : Location) (segment : Segment) : a.Covers (a.child segment) :=
  List.prefix_append ..

theorem covers_step (a : Location) (step : Step) : a.Covers (a.step step) := by
  cases step with
  | key name => exact covers_child a _
  | index position => exact covers_child a _
  | branch condition outcome => exact (covers_child a _).trans (covers_child _ _)

theorem covers_follow (a : Location) (steps : List Step) : a.Covers (a.follow steps) := by
  induction steps generalizing a with
  | nil => exact .refl a
  | cons step rest ih => exact (covers_step a step).trans (ih _)

theorem Covers.ne_of_child (h : (a.child segment).Covers b) : a ≠ b := by
  rintro rfl
  have hlen := List.IsPrefix.length_le h
  simp only [child, List.length_append, List.length_singleton] at hlen
  omega

theorem Covers.child_unique {s t : Segment} (h : (a.child s).Covers b)
    (k : (a.child t).Covers b) : s = t := by
  obtain ⟨xs, hx⟩ := h
  obtain ⟨ys, hy⟩ := k
  rw [← hy] at hx
  simp [child] at hx
  exact hx.1

end Location

namespace Json

/-- Two parts of a value, the first one in front of the second one. -/
inductive InOrder : Json → Segment → Segment → Prop where
  | members {entries a b} : [a, b].Sublist (Entries.keys entries) →
      InOrder (.object entries) (.key a) (.key b)
  | elements {items i j} : i < j → j < items.length → InOrder (.array items) (.index i) (.index j)

/-- Document order: what is above comes first, and of two places that part at a value the one in the
part in front. -/
inductive Before (document : Json) (a b : Location) : Prop where
  | above : a.Covers b → a ≠ b → Before document a b
  | beside {place value s t} : document.valueAt? place = some value → value.InOrder s t →
      (place.child s).Covers a → (place.child t).Covers b → Before document a b

variable {document value : Json} {a b : Location} {s t : Segment}

theorem UniqueKeys.child? (h : document.UniqueKeys) (hc : document.child? s = some value) :
    value.UniqueKeys := by
  cases document with
  | object entries =>
    cases s with
    | key name => exact h.entry (Entries.mem_of_find? hc)
    | index i => simp [Json.child?] at hc
  | array items =>
    cases s with
    | key name => simp [Json.child?] at hc
    | index i => exact h.item (List.mem_of_getElem? hc)
  | _ => simp [Json.child?] at hc

theorem UniqueKeys.valueAt? (h : document.UniqueKeys)
    (hv : document.valueAt? a = some value) : value.UniqueKeys := by
  obtain ⟨segments⟩ := a
  change segments.foldlM Json.child? document = some value at hv
  induction segments generalizing document with
  | nil => exact Option.some.inj hv ▸ h
  | cons segment rest ih =>
    obtain ⟨w, hw, hr⟩ := Option.bind_eq_some_iff.mp hv
    exact ih (h.child? hw) hr

theorem InOrder.ne (h : value.InOrder s t) (hu : value.UniqueKeys) : s ≠ t := by
  cases h with
  | @members entries x y hs =>
    have hn : [x, y].Nodup := hu.nodup.sublist hs
    simpa using hn
  | elements hij _ =>
    simp
    omega

theorem Before.ne (h : document.Before a b) (hu : document.UniqueKeys) : a ≠ b := by
  rintro rfl
  cases h with
  | above _ hne => exact hne rfl
  | beside hv ho hs ht => exact ho.ne (hu.valueAt? hv) (hs.child_unique ht)

end Json

/-- The first visit checks a place that comes before the place that the second one checks. -/
def Visit.CheckedBefore (document : Json) (v w : Visit) : Prop :=
  ∀ a, v.location? = some a → ∀ b, w.location? = some b → document.Before a b

namespace Property

variable {document : Json} {location : Location}

theorem GroundedAt.exists_array {items : List Property}
    (h : GroundedAt document location (.list items)) :
    ∃ values, document.valueAt? location = some (.array values) ∧
      values.length = items.length := by
  obtain ⟨v, hv, -, ho⟩ := h
  obtain ⟨values, rfl, rfl⟩ := ofJson_eq_list ho
  exact ⟨values, hv, by simp⟩

theorem GroundedAt.exists_object {entries : List (String × Property)}
    (h : GroundedAt document location (.object entries)) :
    ∃ members, document.valueAt? location = some (.object members) ∧
      Entries.keys members = Entries.keys entries := by
  obtain ⟨v, hv, -, ho⟩ := h
  obtain ⟨members, rfl, rfl⟩ := ofJson_eq_object ho
  exact ⟨members, hv, by simp [Entries.keys, Function.comp_def]⟩

theorem GroundedAt.exists_arguments {condition : Option String}
    {whenTrue whenFalse : Option Property} {arity : Nat}
    (h : GroundedAt document location (.conditional condition whenTrue whenFalse arity))
    (outcome : Bool) {w : Property} (hb : branch? outcome whenTrue whenFalse = some w) :
    ∃ arguments, document.valueAt? (location.key conditionalKey) = some (.array arguments) ∧
      Location.branchIndex outcome < arguments.length := by
  obtain ⟨v, hv, -, ho⟩ := h
  obtain ⟨arguments, argument, rfl, ha, -⟩ := ofJson_eq_conditional ho hb
  refine ⟨arguments, ?_, (List.getElem?_eq_some_iff.mp ha).1⟩
  rw [Json.valueAt?_key, hv]
  simp [Json.get?, Entries.find?]

end Property

/-- No type has a group twice. -/
def Catalog.GroupsDistinct (catalog : Catalog) : Prop :=
  ∀ part, ∀ entry ∈ catalog.types part, entry.2.Nodup

namespace Template

open Property

variable {document template : Json} {catalog : Catalog} {due : Bool} {type : String}
  {location place : Location} {value : Property} {visit : Visit} {limits : Limits}

theorem covers_of_mem_visitsOf (h : visit ∈ visitsOf catalog due type location value)
    (hp : visit.location? = some place) : location.Covers place := by
  obtain ⟨steps, v, -, rfl⟩ := exists_route_of_mem_visitsOf h
  exact Option.some.inj hp ▸ Location.covers_follow location steps

theorem checkedBefore_of_inOrder {v w : Visit} {j : Json} {s t : Segment}
    {valueS valueT : Property} {dueS dueT : Bool} {typeS typeT : String}
    {below below' : Location} (hj : document.valueAt? location = some j) (ho : j.InOrder s t)
    (hs : (location.child s).Covers below) (ht : (location.child t).Covers below')
    (hv : v ∈ visitsOf catalog dueS typeS below valueS)
    (hw : w ∈ visitsOf catalog dueT typeT below' valueT) : v.CheckedBefore document w :=
  fun _ ha _ hb => .beside hj ho (hs.trans (covers_of_mem_visitsOf hv ha))
    (ht.trans (covers_of_mem_visitsOf hw hb))

theorem checkedBefore_of_above {v w : Visit} {s : Segment} {below : Location} {dueS : Bool}
    {typeS : String} {valueS : Property} (hl : v.location? = some location)
    (hs : (location.child s).Covers below)
    (hw : w ∈ visitsOf catalog dueS typeS below valueS) : v.CheckedBefore document w := by
  intro a ha b hb
  obtain rfl := Option.some.inj (hl.symm.trans ha)
  have hc := hs.trans (covers_of_mem_visitsOf hw hb)
  exact .above ((Location.covers_child _ _).trans hc) hc.ne_of_child

theorem location?_of_mem_visitHere {here : Bool}
    (h : visit ∈ if here then [Visit.nested type value location] else []) :
    visit.location? = some location := by
  cases here with
  | false => simp at h
  | true =>
    obtain rfl := List.mem_singleton.mp h
    rfl

theorem lt_of_sublist_zipIdx {items : List Property} {x y : Property × Nat}
    (h : [x, y].Sublist items.zipIdx) : x.2 < y.2 ∧ y.2 < items.length := by
  have hs := h.map Prod.snd
  rw [List.zipIdx_map_snd] at hs
  have hlt : [x.2, y.2].Pairwise (· < ·) := List.Pairwise.sublist hs List.pairwise_lt_range'
  have hm : y.2 ∈ List.range' 0 items.length := hs.subset (by simp)
  exact ⟨by simpa using hlt, by simpa using hm⟩

theorem visitsOfItems_checkedBefore {items : List Property}
    (hg : GroundedAt document location (.list items))
    (hi : ∀ i item, items[i]? = some item →
      (visitsOf catalog due type (location.index i) item).Pairwise
        (Visit.CheckedBefore document)) :
    (visitsOfItems catalog due type location 0 items).Pairwise (Visit.CheckedBefore document) := by
  obtain ⟨values, hv, hlen⟩ := hg.exists_array
  rw [visitsOfItems_eq_flatMap, List.pairwise_flatMap]
  refine ⟨fun x hx => hi x.2 x.1 (List.mk_mem_zipIdx_iff_getElem?.mp hx), ?_⟩
  rw [List.pairwise_iff_forall_sublist]
  intro x y hxy v hvx w hwy
  obtain ⟨hlt, hin⟩ := lt_of_sublist_zipIdx hxy
  exact checkedBefore_of_inOrder hv (.elements hlt (hlen ▸ hin)) (.refl _) (.refl _) hvx hwy

theorem visitsOfEntries_checkedBefore {entries : List (String × Property)}
    (hg : GroundedAt document location (.object entries))
    (he : ∀ entry ∈ entries, ∀ due type, (visitsOf catalog due type (location.key entry.1)
      entry.2).Pairwise (Visit.CheckedBefore document)) :
    (visitsOfEntries catalog type location entries).Pairwise (Visit.CheckedBefore document) := by
  obtain ⟨members, hv, hkeys⟩ := hg.exists_object
  rw [visitsOfEntries_eq_flatMap, List.pairwise_flatMap]
  refine ⟨fun entry hm => he entry hm _ _, ?_⟩
  rw [List.pairwise_iff_forall_sublist]
  intro x y hxy v hvx w hwy
  have hs : [x.1, y.1].Sublist (Entries.keys members) := hkeys ▸ hxy.map Prod.fst
  exact checkedBefore_of_inOrder hv (.members hs) (.refl _) (.refl _) hvx hwy

theorem visitsOf_conditional_checkedBefore {condition : Option String}
    {whenTrue whenFalse : Option Property} {arity : Nat}
    (hg : GroundedAt document location (.conditional condition whenTrue whenFalse arity))
    (hb : ∀ outcome w, branch? outcome whenTrue whenFalse = some w → ∀ due,
      (visitsOf catalog due type (location.branch outcome) w).Pairwise
        (Visit.CheckedBefore document)) :
    (visitsOf catalog due type location (.conditional condition whenTrue whenFalse
      arity)).Pairwise (Visit.CheckedBefore document) := by
  have hbranch : ∀ outcome due, (visitsOfBranch catalog due type (location.branch outcome)
      (branch? outcome whenTrue whenFalse)).Pairwise (Visit.CheckedBefore document) := by
    intro outcome due
    cases hw : branch? outcome whenTrue whenFalse with
    | none => exact .nil
    | some w => exact hb outcome w hw due
  rw [visitsOf, List.append_assoc, List.pairwise_append, List.pairwise_append]
  refine ⟨?_, ⟨hbranch true _, hbranch false _, ?_⟩, ?_⟩
  · split
    · exact List.pairwise_singleton _ _
    · exact .nil
  · intro v hv w hw
    obtain ⟨valueT, -, hv⟩ := mem_visitsOfBranch.mp hv
    obtain ⟨valueF, hbF, hw⟩ := mem_visitsOfBranch.mp hw
    obtain ⟨arguments, hj, hlen⟩ := hg.exists_arguments false hbF
    exact checkedBefore_of_inOrder hj (.elements Nat.one_lt_two hlen) (.refl _) (.refl _) hv hw
  · intro v hv w hw
    have hl := location?_of_mem_visitHere hv
    rcases List.mem_append.mp hw with hw | hw
    · obtain ⟨valueT, -, hw⟩ := mem_visitsOfBranch.mp hw
      exact checkedBefore_of_above hl (Location.covers_child _ _) hw
    · obtain ⟨valueF, -, hw⟩ := mem_visitsOfBranch.mp hw
      exact checkedBefore_of_above hl (Location.covers_child _ _) hw

/-- The visits to a value of the document and below it are in order. -/
theorem visitsOf_checkedBefore (hg : GroundedAt document location value) :
    (visitsOf catalog due type location value).Pairwise (Visit.CheckedBefore document) := by
  induction value using Property.induction_branches generalizing due type location with
  | scalar v => cases due <;> simp [visitsOf]
  | removed => simp [visitsOf]
  | list items ih =>
    rw [visitsOf]
    exact visitsOfItems_checkedBefore hg fun i item hi =>
      ih item (List.mem_of_getElem? hi) (hg.index hi)
  | object entries ih =>
    rw [visitsOf, List.pairwise_append]
    refine ⟨?_, visitsOfEntries_checkedBefore hg fun entry hm due type =>
      ih entry hm (hg.key hm), ?_⟩
    · cases due <;> simp
    · intro v hv w hw
      obtain ⟨key, valueK, -, hw⟩ := mem_visitsOfEntries.mp hw
      exact checkedBefore_of_above (location?_of_mem_visitHere hv) (.refl _) hw
  | conditional condition whenTrue whenFalse arity ih =>
    exact visitsOf_conditional_checkedBefore hg fun outcome w hb due =>
      ih outcome w hb (hg.branch hb)

/-! ## Resources -/

theorem ne_of_not_due (h : visit ∈ visitsOf catalog false type location value)
    (hp : visit.location? = some place) : location ≠ place := by
  obtain ⟨steps, v, -, rfl⟩ := exists_route_of_mem_visitsOf h
  obtain rfl := Option.some.inj hp
  intro he
  have hsize := Location.size_follow location steps
  rw [← he] at hsize
  obtain rfl : steps = [] := List.length_eq_zero_iff.mp (by omega)
  exact absurd (length_lt_of_not_due h) (Nat.lt_irrefl _)

variable {name : String} {resource : Json}

theorem visitsOfResource_checkedBefore (hu : template.UniqueKeys)
    (hr : ∀ type, (resource.get? "Type").bind Json.text? = some type →
      IsResource template name type resource) :
    (visitsOfResource catalog name resource).Pairwise (Visit.CheckedBefore template) := by
  unfold visitsOfResource
  split
  · exact List.pairwise_singleton _ _
  · rename_i type ht
    refine List.pairwise_cons.mpr ⟨?_, ?_⟩
    · intro w hw a ha b hb
      obtain rfl := Option.some.inj ha
      exact .above (covers_of_mem_visitsOf hw hb) (ne_of_not_due hw hb)
    · rcases (hr type ht).groundedAt_or_absent hu with hg | ⟨-, hp⟩
      · exact visitsOf_checkedBefore hg
      · simp [hp, visitsOf, visitsOfEntries]

theorem covers_of_mem_visitsOfResource (h : visit ∈ visitsOfResource catalog name resource)
    (hp : visit.location? = some place) : (propertiesLocation name).Covers place := by
  unfold visitsOfResource at h
  split at h
  · obtain rfl := List.mem_singleton.mp h
    cases hp
  · rcases List.mem_cons.mp h with rfl | h
    · cases hp
      exact .refl _
    · exact covers_of_mem_visitsOf h hp

theorem visits_checkedBefore (hu : template.UniqueKeys) (catalog : Catalog) :
    (visits catalog template).Pairwise (Visit.CheckedBefore template) := by
  unfold visits
  split
  · exact List.pairwise_singleton _ _
  · rename_i resources hres
    obtain ⟨j, hj, he⟩ := Option.bind_eq_some_iff.mp hres
    obtain rfl : j = .object resources := by cases j <;> simp_all [Json.entries?]
    have hv : template.valueAt? (Location.root.key "Resources") = some (.object resources) := by
      rw [Json.valueAt?_key]
      exact hj
    rw [List.pairwise_flatMap]
    refine ⟨fun entry hm => visitsOfResource_checkedBefore hu fun type ht =>
      ⟨⟨resources, hres, hm⟩, ht⟩, ?_⟩
    rw [List.pairwise_iff_forall_sublist]
    intro x y hxy v hvx w hwy a ha b hb
    have hs : [x.1, y.1].Sublist (Entries.keys resources) := hxy.map Prod.fst
    exact .beside hv (.members hs)
      ((Location.covers_child _ _).trans (covers_of_mem_visitsOfResource hvx ha))
      ((Location.covers_child _ _).trans (covers_of_mem_visitsOfResource hwy hb))

/-! ## Violations -/

def checkedLocations (catalog : Catalog) (template : Json) : List Location :=
  (visits catalog template).filterMap Visit.location?

theorem location?_of_mem_findings {v : Violation}
    (h : v ∈ violationsIn (visit.findings limits catalog)) : visit.location? = some v.location := by
  rw [mem_violationsIn] at h
  cases visit with
  | noResources => simp [Visit.findings] at h
  | untypedResource name => simp [Visit.findings] at h
  | resource name type properties => exact congrArg some (of_mem_check h).symm
  | nested type value place => exact congrArg some (of_mem_check h).symm

theorem nodup_groups (h : catalog.GroupsDistinct) (part : Section) (type : String) :
    (catalog.groups part type).Nodup := by
  cases hf : Entries.find? type (catalog.types part) with
  | none => simp [Catalog.groups, hf]
  | some groups =>
    simpa [Catalog.groups, hf] using h part _ (Entries.mem_of_find? hf)

theorem visit_findings_distinct (h : catalog.GroupsDistinct) (visit : Visit) :
    (violationsIn (visit.findings limits catalog)).Pairwise fun v w => ¬ v.Same w := by
  cases visit with
  | noResources => exact .nil
  | untypedResource name => exact .nil
  | resource name type properties => exact check_distinct (nodup_groups h .resources type)
  | nested type value place => exact check_distinct (nodup_groups h .properties type)

/-- No location is checked twice, and the checks and the violations go through the document in its
order. If no type has a group twice, no violation is found twice. -/
theorem checks_in_document_order (hu : template.UniqueKeys) (limits : Limits)
    (catalog : Catalog) :
    (checkedLocations catalog template).Pairwise template.Before ∧
    (checkedLocations catalog template).Nodup ∧
    (violationsIn (findings limits catalog template)).Pairwise
      (fun v w => v.location = w.location ∨ template.Before v.location w.location) ∧
    (catalog.GroupsDistinct →
      (violationsIn (findings limits catalog template)).Pairwise fun v w => ¬ v.Same w) := by
  have hv := visits_checkedBefore hu catalog
  have hc : (checkedLocations catalog template).Pairwise template.Before :=
    List.pairwise_filterMap.mpr hv
  refine ⟨hc, hc.imp fun h => h.ne hu, ?_, fun hd => ?_⟩
  · rw [findings, violationsIn_flatMap, List.pairwise_flatMap]
    refine ⟨fun visit _ => List.pairwise_of_forall_mem_list fun v hm w hm' => ?_, hv.imp ?_⟩
    · have he := (location?_of_mem_findings hm).symm.trans (location?_of_mem_findings hm')
      exact Or.inl (Option.some.inj he)
    · intro visit other hbefore v hm w hm'
      exact Or.inr (hbefore _ (location?_of_mem_findings hm) _ (location?_of_mem_findings hm'))
  · rw [findings, violationsIn_flatMap, List.pairwise_flatMap]
    refine ⟨fun visit _ => visit_findings_distinct hd visit, hv.imp ?_⟩
    intro visit other hbefore v hm w hm' hsame
    have hlt := hbefore _ (location?_of_mem_findings hm) _ (location?_of_mem_findings hm')
    exact hlt.ne hu hsame.location

/-- A function whose code is a list in one branch and an object in the other one, and an entry
without properties. -/
def listThenObject : Json :=
  .object [("Resources", .object [
    ("Fn", functionOf (.object [("Fn::If", .array [.text "C",
      .array [.object [], .object [("ZipFile", .text "x"), ("ImageUri", .text "y")]],
      .object []])])),
    ("Entry", .object [("Type", .text "AWS::EC2::NetworkAclEntry")])])]

example : checkedLocations .bundled listThenObject =
    [propertiesLocation "Fn", (codeLocation.branch true).index 0,
      (codeLocation.branch true).index 1, codeLocation.branch false,
      propertiesLocation "Entry"] := by decide

theorem listThenObject_in_order :
    let checked := checkedLocations .bundled listThenObject
    let violations := violationsIn (findings {} .bundled listThenObject)
    listThenObject.UniqueKeys ∧ Catalog.bundled.GroupsDistinct ∧
    checked.Pairwise listThenObject.Before ∧ checked.Nodup ∧
    violations.Pairwise
      (fun v w => v.location = w.location ∨ listThenObject.Before v.location w.location) ∧
    violations.Pairwise fun v w => ¬ v.Same w := by
  intro checked violations
  have hu : listThenObject.UniqueKeys := by
    simp [listThenObject, functionOf, Json.UniqueKeys, Json.UniqueKeysItems,
      Json.UniqueKeysEntries, Entries.keys]
  have hd : Catalog.bundled.GroupsDistinct := by
    intro part
    cases part <;> decide
  obtain ⟨hc, hn, hv, hs⟩ := checks_in_document_order hu {} .bundled
  exact ⟨hu, hd, hc, hn, hv, hs hd⟩

end Template

end ExactlyOne
