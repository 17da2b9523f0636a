import ExactlyOne.Proofs.Grounding
import ExactlyOne.Proofs.Lowering

/-!
# Writing what was read, and reading it again

A conditional is written with its condition and its branches. An argument behind these is lost, and
where nothing names a condition there stands a null. So a document comes back as it was just if no
conditional that the lowering meets has lost something, and what is read again from it is the value
that was read just if every such conditional still has its number of arguments.
-/
namespace ExactlyOne

namespace Property

open Json

variable {v : Json}

/-! ## What is written of a document that was read -/

theorem toJson_ofJson_of_isScalar (h : v.isScalar) : toJson (ofJson v) = v := by
  rw [ofJson_of_isScalar h, toJson]

theorem toJson_ofJson_array (items : List Json) : toJson (ofJson (.array items)) =
    .array (items.map fun item => toJson (ofJson item)) := by
  rw [ofJson_array, toJson, toItems_eq_map, List.map_map]
  rfl

theorem toJson_ofJson_plain {entries : List (String × Json)} (h : Plain entries) :
    toJson (ofJson (.object entries)) =
      .object (entries.map fun entry => (entry.1, toJson (ofJson entry.2))) := by
  rw [ofJson_plain h, toJson, toEntries_eq_map, List.map_map]
  rfl

theorem toJson_ofJson_removal : toJson (ofJson removal) = removal := rfl

def writtenCondition (condition : Option String) : Json := (condition.map Json.text).getD .null

theorem toJson_ofJson_listed (arguments : List Json) :
    toJson (ofJson (conditionalOf (.array arguments))) =
      conditionalOf (.array (writtenCondition (conditionOf arguments) ::
        ((arguments.drop 1).take 2).map fun v => toJson (ofJson v))) := by
  rw [ofJson_listed, toJson]
  rcases arguments with _ | ⟨a, _ | ⟨b, _ | ⟨c, rest⟩⟩⟩ <;> rfl

theorem toJson_ofJson_unlisted {argument : Json} (h : ∀ arguments, argument ≠ .array arguments) :
    toJson (ofJson (conditionalOf argument)) = conditionalOf (.array [.null]) := by
  rw [ofJson_unlisted h]
  rfl

/-! ## Arguments of a conditional -/

/-- What stands behind the key of a conditional is a list of one to three arguments. -/
def Counted : Json → Prop
  | .array arguments => 1 ≤ arguments.length ∧ arguments.length ≤ 3
  | _ => False

theorem counted_array_iff {arguments : List Json} :
    Counted (.array arguments) ↔ 1 + min 2 (arguments.length - 1) = arguments.length := by
  rw [Counted]
  omega

theorem not_counted_of_unlisted {argument : Json} (h : ∀ arguments, argument ≠ .array arguments) :
    ¬ Counted argument := by
  cases argument with
  | array arguments => exact absurd rfl (h arguments)
  | _ => exact id

/-- What stands behind the key of a conditional is a condition or a null, and at most two
branches. -/
def Kept : Json → Prop
  | .array (condition :: branches) =>
    (condition = .null ∨ ∃ name, condition = .text name) ∧ branches.length ≤ 2
  | _ => False

theorem Kept.counted {argument : Json} (h : Kept argument) : Counted argument := by
  unfold Kept at h
  split at h
  · rw [Counted, List.length_cons]
    omega
  · exact h.elim

/-! ## The document comes back -/

theorem writtenCondition_eq_iff {condition : Json} {branches : List Json} :
    writtenCondition (conditionOf (condition :: branches)) = condition ↔
      condition = .null ∨ ∃ name, condition = .text name := by
  cases condition <;> simp [writtenCondition, conditionOf, text?]

section

variable (f : Json → Json)

theorem array_map_eq_iff (items : List Json) :
    Json.array (items.map f) = .array items ↔ ∀ item ∈ items, f item = item := by
  calc Json.array (items.map f) = .array items
    _ ↔ items.map f = items.map id := by rw [Json.array.injEq, List.map_id]
    _ ↔ ∀ item ∈ items, f item = item := List.map_inj_left

theorem object_map_eq_iff (entries : List (String × Json)) :
    Json.object (entries.map fun entry => (entry.1, f entry.2)) = .object entries ↔
      ∀ entry ∈ entries, f entry.2 = entry.2 := by
  have hentry : ∀ entry : String × Json, (entry.1, f entry.2) = id entry ↔ f entry.2 = entry.2 := by
    intro entry
    exact ⟨congrArg Prod.snd, fun h => Prod.ext rfl h⟩
  calc Json.object (entries.map fun entry => (entry.1, f entry.2)) = .object entries
    _ ↔ entries.map (fun entry => (entry.1, f entry.2)) = entries.map id := by
      rw [Json.object.injEq, List.map_id]
    _ ↔ ∀ entry ∈ entries, (entry.1, f entry.2) = id entry := List.map_inj_left
    _ ↔ ∀ entry ∈ entries, f entry.2 = entry.2 := forall₂_congr fun entry _ => hentry entry

/-- Arguments are written as they are just if they are kept, and so is each branch. -/
theorem written_arguments_eq_iff (arguments : List Json) :
    writtenCondition (conditionOf arguments) :: ((arguments.drop 1).take 2).map f = arguments ↔
      Kept (.array arguments) ∧ (∀ v ∈ arguments[1]?, f v = v) ∧
        ∀ v ∈ arguments[2]?, f v = v := by
  cases arguments with
  | nil => simp [Kept]
  | cons condition branches =>
    have hbranches : (branches.take 2).map f = branches ↔ branches.length ≤ 2 ∧
        (∀ v ∈ branches[0]?, f v = v) ∧ ∀ v ∈ branches[1]?, f v = v := by
      rcases branches with _ | ⟨a, _ | ⟨b, _ | ⟨c, rest⟩⟩⟩ <;> simp
    rw [List.cons.injEq, writtenCondition_eq_iff, List.drop_succ_cons, List.drop_zero, hbranches,
      Kept, List.getElem?_cons_succ, List.getElem?_cons_succ, and_assoc]

end

/-- Writing gives back the document that was read just if each conditional that the lowering meets
has one to three arguments, of which the first is a text or a null. -/
theorem toJson_ofJson_eq_iff (v : Json) : toJson (ofJson v) = v ↔ ConditionalsMet Kept v := by
  induction v using Json.induction_lowering with
  | scalar v h => exact iff_of_true (toJson_ofJson_of_isScalar h) (conditionalsMet_of_isScalar h)
  | array items ih =>
    rw [toJson_ofJson_array, conditionalsMet_array, array_map_eq_iff fun v => toJson (ofJson v)]
    exact forall₂_congr ih
  | plain entries hp ih =>
    rw [toJson_ofJson_plain hp, conditionalsMet_plain hp,
      object_map_eq_iff fun v => toJson (ofJson v)]
    exact forall₂_congr ih
  | removal => exact iff_of_true toJson_ofJson_removal conditionalsMet_removal
  | listed arguments ih =>
    have hmet : ∀ n : Nat, (∀ v ∈ arguments[n]?, toJson (ofJson v) = v) ↔
        ∀ v ∈ arguments[n]?, ConditionalsMet Kept v := fun n =>
      forall₂_congr fun v hv => ih v (List.mem_of_getElem? hv)
    have hwritten : ∀ arguments' : List Json,
        conditionalOf (.array arguments') = conditionalOf (.array arguments) ↔
          arguments' = arguments := by
      simp
    rw [toJson_ofJson_listed, conditionalsMet_listed, hwritten,
      written_arguments_eq_iff fun v => toJson (ofJson v), hmet, hmet]
  | unlisted argument h =>
    rw [toJson_ofJson_unlisted h, conditionalsMet_unlisted h]
    refine iff_of_false (fun he => ?_) fun hk => not_counted_of_unlisted h hk.counted
    exact h [.null] (by simpa using he.symm)

/-! ## What is read again -/

theorem toJson_ofJson_eq_text {s : String} (h : toJson (ofJson v) = .text s) : v = .text s := by
  cases v using Json.induction_lowering with
  | scalar v hv => rwa [toJson_ofJson_of_isScalar hv] at h
  | array items => rw [toJson_ofJson_array] at h; cases h
  | plain entries hp => rw [toJson_ofJson_plain hp] at h; cases h
  | removal => cases h
  | listed arguments => rw [toJson_ofJson_listed] at h; cases h
  | unlisted argument hu => rw [toJson_ofJson_unlisted hu] at h; cases h

theorem Plain.written {entries : List (String × Json)} (h : Plain entries) :
    Plain (entries.map fun entry => (entry.1, toJson (ofJson entry.2))) := by
  constructor
  · intro argument he
    obtain ⟨⟨key, v⟩, rfl, hv⟩ := List.map_eq_singleton_iff.mp (Json.object.inj he)
    cases hv
    exact h.1 v rfl
  · intro he
    obtain ⟨⟨key, v⟩, rfl, hv⟩ := List.map_eq_singleton_iff.mp (Json.object.inj he)
    obtain ⟨rfl, htext⟩ := Prod.mk.inj hv
    obtain rfl : v = .text removedName := toJson_ofJson_eq_text htext
    exact h.2 rfl

theorem readAgain_array (items : List Json) : ofJson (toJson (ofJson (.array items))) =
    .list (items.map fun item => ofJson (toJson (ofJson item))) := by
  rw [toJson_ofJson_array, ofJson_array, List.map_map]
  rfl

theorem readAgain_plain {entries : List (String × Json)} (h : Plain entries) :
    ofJson (toJson (ofJson (.object entries))) =
      .object (entries.map fun entry => (entry.1, ofJson (toJson (ofJson entry.2)))) := by
  rw [toJson_ofJson_plain h, ofJson_plain (Plain.written h), List.map_map]
  rfl

/-- The number of arguments is the only part of a conditional that may be another one. -/
theorem readAgain_listed (arguments : List Json) :
    ofJson (toJson (ofJson (conditionalOf (.array arguments)))) =
      .conditional (conditionOf arguments)
        (arguments[1]?.map fun v => ofJson (toJson (ofJson v)))
        (arguments[2]?.map fun v => ofJson (toJson (ofJson v)))
        (1 + min 2 (arguments.length - 1)) := by
  have hcondition : ∀ condition rest,
      conditionOf (writtenCondition condition :: rest) = condition := by
    intro condition rest
    cases condition <;> rfl
  rw [toJson_ofJson_listed, ofJson_listed, hcondition]
  rcases arguments with _ | ⟨a, _ | ⟨b, _ | ⟨c, rest⟩⟩⟩ <;> simp

theorem readAgain_unlisted {argument : Json} (h : ∀ arguments, argument ≠ .array arguments) :
    ofJson (toJson (ofJson (conditionalOf argument))) = .conditional none none none 1 := by
  rw [toJson_ofJson_unlisted h]
  rfl

theorem readAgain_eq (h : ConditionalsMet Counted v) : ofJson (toJson (ofJson v)) = ofJson v := by
  induction v using Json.induction_lowering with
  | scalar v hv => rw [toJson_ofJson_of_isScalar hv]
  | array items ih =>
    rw [readAgain_array, ofJson_array]
    have hi := conditionalsMet_array.mp h
    exact congrArg list (List.map_congr_left fun item hm => ih item hm (hi item hm))
  | plain entries hp ih =>
    rw [readAgain_plain hp, ofJson_plain hp]
    have he := (conditionalsMet_plain hp).mp h
    exact congrArg object (List.map_congr_left fun entry hm =>
      Prod.ext rfl (ih entry hm (he entry hm)))
  | removal => rfl
  | listed arguments ih =>
    obtain ⟨hc, hfirst, hsecond⟩ := conditionalsMet_listed.mp h
    rw [readAgain_listed, ofJson_listed, counted_array_iff.mp hc,
      Option.map_congr fun v hv => ih v (List.mem_of_getElem? hv) (hfirst v hv),
      Option.map_congr fun v hv => ih v (List.mem_of_getElem? hv) (hsecond v hv)]
  | unlisted argument hu =>
    exact absurd ((conditionalsMet_unlisted hu).mp h) (not_counted_of_unlisted hu)

/-! ## Equality of what is read again -/

theorem same_scalar_self (h : v.isScalar) : same (.scalar v) (.scalar v) = true := by
  rw [same]
  cases v with
  | number n => cases n <;> simp [Json.same, JsonNumber.same, Binary64.sameValue]
  | array items => cases h
  | object entries => cases h
  | _ => simp [Json.same]

theorem same_list_map_iff {f g : Json → Property} {items : List Json} :
    same (.list (items.map f)) (.list (items.map g)) = true ↔
      ∀ item ∈ items, same (f item) (g item) = true := by
  rw [same]
  induction items with
  | nil => simp [sameItems]
  | cons item rest ih => simp [sameItems, ih]

theorem sameEntries_map_iff {f g : Json → Property} {entries : List (String × Json)}
    {others : List (String × Property)}
    (h : ∀ entry ∈ entries, Entries.find? entry.1 others = some (g entry.2)) :
    sameEntries (entries.map fun entry => (entry.1, f entry.2)) others = true ↔
      ∀ entry ∈ entries, same (f entry.2) (g entry.2) = true := by
  induction entries with
  | nil => simp [sameEntries]
  | cons entry rest ih =>
    obtain ⟨hfirst, hrest⟩ := List.forall_mem_cons.mp h
    simp [sameEntries, hfirst, ih hrest]

theorem same_object_map_iff {f g : Json → Property} {entries : List (String × Json)}
    (hn : (Entries.keys entries).Nodup) :
    same (.object (entries.map fun entry => (entry.1, f entry.2)))
        (.object (entries.map fun entry => (entry.1, g entry.2))) = true ↔
      ∀ entry ∈ entries, same (f entry.2) (g entry.2) = true := by
  have hkeys : (Entries.keys (entries.map fun entry => (entry.1, g entry.2))).Nodup := by
    simpa [Entries.keys, Function.comp_def] using hn
  have hfind : ∀ entry ∈ entries, Entries.find? entry.1
      (entries.map fun entry => (entry.1, g entry.2)) = some (g entry.2) :=
    fun entry he => Entries.find?_of_mem hkeys (List.mem_map_of_mem he)
  simp [same, sameEntries_map_iff hfind]

theorem sameBranch_map_iff {f g : Json → Property} {branch : Option Json} :
    sameBranch (branch.map f) (branch.map g) = true ↔
      ∀ v ∈ branch, same (f v) (g v) = true := by
  cases branch <;> simp [sameBranch]

/-- What is read again is equal to what was read just if every conditional that is met has one to
three arguments. -/
theorem same_readAgain_iff (hu : v.UniqueKeys) :
    same (ofJson (toJson (ofJson v))) (ofJson v) = true ↔ ConditionalsMet Counted v := by
  induction v using Json.induction_lowering with
  | scalar v h =>
    rw [toJson_ofJson_of_isScalar h, ofJson_of_isScalar h]
    exact iff_of_true (same_scalar_self h) (conditionalsMet_of_isScalar h)
  | array items ih =>
    rw [readAgain_array, ofJson_array, same_list_map_iff, conditionalsMet_array]
    exact forall₂_congr fun item hi => ih item hi (hu.item hi)
  | plain entries hp ih =>
    rw [readAgain_plain hp, ofJson_plain hp, conditionalsMet_plain hp,
      same_object_map_iff (f := fun v => ofJson (toJson (ofJson v))) (g := ofJson) hu.nodup]
    exact forall₂_congr fun entry he => ih entry he (hu.entry he)
  | removal =>
    rw [toJson_ofJson_removal, ofJson_removal]
    exact iff_of_true (by rw [same]) conditionalsMet_removal
  | listed arguments ih =>
    have hmet : ∀ n : Nat, (∀ v ∈ arguments[n]?,
        same (ofJson (toJson (ofJson v))) (ofJson v) = true) ↔
        ∀ v ∈ arguments[n]?, ConditionalsMet Counted v := by
      intro n
      refine forall₂_congr fun v hv => ?_
      have hm : v ∈ arguments := List.mem_of_getElem? hv
      exact ih v hm ((hu.entry List.mem_cons_self).item hm)
    rw [readAgain_listed, ofJson_listed, same, conditionalsMet_listed, counted_array_iff]
    simp only [Bool.and_eq_true, beq_self_eq_true, true_and, beq_iff_eq, sameBranch_map_iff, hmet]
    exact and_comm
  | unlisted argument h =>
    rw [readAgain_unlisted h, ofJson_unlisted h, conditionalsMet_unlisted h]
    exact iff_of_false (by simp [same]) (not_counted_of_unlisted h)

/-! ## What is wrong with a conditional that is read again -/

def malformation? : Property → Option Malformation
  | .conditional condition whenTrue whenFalse arity =>
    match parts condition whenTrue whenFalse arity with
    | .ok _ => none
    | .error m => some m
  | _ => none

section

variable {condition : Option String} {whenTrue whenFalse : Option Property} {arity : Nat}

theorem malformation?_eq_some_iff {m : Malformation} :
    malformation? (.conditional condition whenTrue whenFalse arity) = some m ↔
      parts condition whenTrue whenFalse arity = .error m := by
  rw [malformation?]
  cases parts condition whenTrue whenFalse arity <;> simp

theorem malformation?_eq_argumentCount_iff {count : Nat} :
    malformation? (.conditional condition whenTrue whenFalse arity) =
      some (.argumentCount count) ↔ arity ≠ 3 ∧ count = arity := by
  rw [malformation?_eq_some_iff, parts_eq_error_iff]
  by_cases h : arity = 3
  · cases condition <;> simp [malformation, h]
  · have hm : Malformed condition whenTrue whenFalse arity := fun _ _ _ _ _ _ hn => h hn
    simp [malformation, h, hm]

theorem malformation?_map (f g : Json → Property) (first second : Option Json) :
    malformation? (.conditional condition (first.map f) (second.map f) arity) =
      malformation? (.conditional condition (first.map g) (second.map g) arity) := by
  by_cases h : arity = 3
  · subst h
    cases condition <;> cases first <;> cases second <;> rfl
  · have hcount : ∀ t t' : Option Property,
        malformation? (.conditional condition t t' arity) = some (.argumentCount arity) :=
      fun t t' => malformation?_eq_argumentCount_iff.mpr ⟨h, rfl⟩
    rw [hcount, hcount]

end

theorem malformation?_readAgain_iff (argument : Json) :
    malformation? (ofJson (toJson (ofJson (conditionalOf argument)))) =
      malformation? (ofJson (conditionalOf argument)) ↔ Counted argument := by
  by_cases hl : ∃ arguments, argument = .array arguments
  · obtain ⟨arguments, rfl⟩ := hl
    rw [readAgain_listed, ofJson_listed, counted_array_iff,
      malformation?_map (fun v => ofJson (toJson (ofJson v))) ofJson]
    constructor
    · intro h
      by_contra hne
      -- with another number of arguments than three, what is wrong is this number
      have hcount : arguments.length ≠ 3 := by omega
      rw [malformation?_eq_argumentCount_iff.mpr ⟨hcount, rfl⟩,
        malformation?_eq_argumentCount_iff] at h
      exact hne h.2.symm
    · intro h
      rw [h]
  · have hu := not_exists.mp hl
    rw [readAgain_unlisted hu, ofJson_unlisted hu]
    exact iff_of_false (by decide) (not_counted_of_unlisted hu)

/-- A value is the same when it is written and read again just if each conditional that the lowering
meets has one to three arguments, whatever these are. Only such a conditional keeps what is wrong
with it. -/
theorem readAgain_iff (hu : v.UniqueKeys) :
    (same (ofJson (toJson (ofJson v))) (ofJson v) = true ↔ ConditionalsMet Counted v) ∧
    (ConditionalsMet Counted v → ofJson (toJson (ofJson v)) = ofJson v) ∧
    ∀ argument, malformation? (ofJson (toJson (ofJson (conditionalOf argument)))) =
      malformation? (ofJson (conditionalOf argument)) ↔ Counted argument :=
  ⟨same_readAgain_iff hu, readAgain_eq, malformation?_readAgain_iff⟩

/-- Two malformed conditionals: one has no branch for a false condition, and the condition of the
other one is not a text. -/
def twoMalformed : Json :=
  .object [("A", conditionalOf (.array [.text "C", .int 1])),
    ("B", .array [conditionalOf (.array [.int 7, .int 1, removal])])]

theorem twoMalformed_readAgain :
    twoMalformed.UniqueKeys ∧ ConditionalsMet Counted twoMalformed ∧
    ofJson (toJson (ofJson twoMalformed)) = ofJson twoMalformed ∧
    malformation? (ofJson (toJson (ofJson (conditionalOf (.array [.text "C", .int 1]))))) =
      some (.argumentCount 2) := by
  have hu : twoMalformed.UniqueKeys := by
    simp [twoMalformed, Json.UniqueKeys, Json.UniqueKeysItems, Json.UniqueKeysEntries,
      Entries.keys, Json.int]
  have hp : Plain [("A", conditionalOf (.array [.text "C", .int 1])),
      ("B", .array [conditionalOf (.array [.int 7, .int 1, removal])])] := by
    simp [Plain]
  have hc : ConditionalsMet Counted twoMalformed := by
    have hint : ∀ n, ConditionalsMet Counted (.int n) := fun _ => conditionalsMet_of_isScalar rfl
    rw [twoMalformed, conditionalsMet_plain hp]
    simp [conditionalsMet_array, conditionalsMet_listed, conditionalsMet_removal, hint, Counted]
  obtain ⟨-, heq, hreason⟩ := readAgain_iff hu
  exact ⟨hu, hc, heq hc, (hreason _).mpr (by simp [Counted])⟩

/-- With an argument too many, a malformed conditional becomes a well-formed one. -/
theorem exists_readAgain_well_formed :
    ∃ v : Json, v.UniqueKeys ∧ same (ofJson (toJson (ofJson v))) (ofJson v) = false ∧
      malformation? (ofJson v) = some (.argumentCount 4) ∧
      malformation? (ofJson (toJson (ofJson v))) = none := by
  have hu : (conditionalOf (.array [.text "C", .int 1, .int 2, .int 3])).UniqueKeys := by
    simp [Json.UniqueKeys, Json.UniqueKeysItems, Json.UniqueKeysEntries, Entries.keys, Json.int]
  refine ⟨_, hu, ?_, rfl, rfl⟩
  · refine Bool.eq_false_iff.mpr fun h => ?_
    have hc := (same_readAgain_iff hu).mp h _ (.here _)
    simp [Counted] at hc

end Property

end ExactlyOne
