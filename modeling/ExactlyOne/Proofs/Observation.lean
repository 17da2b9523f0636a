import Mathlib.Data.List.Forall2
import ExactlyOne.CommandLine.Input
import ExactlyOne.Disk

/-!
# Looking for files changes nothing

A host that only shows its files when it is asked for them is still as it was after a search. With
tools that only look, it is so after the inputs of a run have been resolved. So all files of a run
are looked for and read in one world, the one in which the run began.
-/
namespace ExactlyOne

variable {World ε α β γ : Type}

theorem run_pure_eq (a : α) (w : World) : (pure a : StateM World α).run w = (a, w) := rfl

theorem run_bind_eq (x : StateM World α) (f : α → StateM World β) (w : World) :
    (x >>= f).run w = (f (x.run w).1).run (x.run w).2 := rfl

/-- An action that leaves the world as it was. -/
def Observing (x : StateM World α) : Prop := ∀ w, (x.run w).2 = w

namespace Observing

theorem pure (a : α) : Observing (Pure.pure a : StateM World α) := fun _ => rfl

theorem bind {x : StateM World α} {f : α → StateM World β} (hx : Observing x)
    (hf : ∀ a, Observing (f a)) : Observing (x >>= f) := by
  intro w
  rw [run_bind_eq, hf, hx]

/-- In the world in which it began an observation is followed by what depends on its answer. -/
theorem run_bind {x : StateM World α} (hx : Observing x) (f : α → StateM World β) (w : World) :
    (x >>= f).run w = (f (x.run w).1).run w := by
  rw [run_bind_eq, hx]

/-! ## Actions that may fail -/

theorem throw (e : ε) : Observing (throw e : ExceptT ε (StateM World) α).run := fun _ => rfl

theorem lift {x : StateM World α} (hx : Observing x) :
    Observing (liftM x : ExceptT ε (StateM World) α).run :=
  hx.bind fun _ => .pure _

theorem andThen {x : ExceptT ε (StateM World) α} {f : α → ExceptT ε (StateM World) β}
    (hx : Observing x.run) (hf : ∀ a, Observing (f a).run) : Observing (x >>= f).run := by
  rw [ExceptT.run_bind]
  refine hx.bind fun result => ?_
  cases result with
  | ok a => exact hf a
  | error e => exact .pure _

theorem mapM (xs : List γ) {f : γ → ExceptT ε (StateM World) β}
    (hf : ∀ x ∈ xs, Observing (f x).run) : Observing (xs.mapM f).run := by
  induction xs with
  | nil => exact .pure _
  | cons x xs ih =>
    rw [List.mapM_cons]
    have hrest := ih fun y hy => hf y (List.mem_cons_of_mem _ hy)
    exact (hf x List.mem_cons_self).andThen fun _ => hrest.andThen fun _ => .pure _

end Observing

/-! ## What an action answers in one world -/

def answer (x : ExceptT ε (StateM World) α) (w : World) : Except ε α := (x.run.run w).1

theorem answer_pure (a : α) (w : World) :
    answer (pure a : ExceptT ε (StateM World) α) w = .ok a := rfl

theorem answer_lift (x : StateM World α) (w : World) :
    answer (liftM x : ExceptT ε (StateM World) α) w = .ok (x.run w).1 := rfl

theorem answer_bind {x : ExceptT ε (StateM World) α} (hx : Observing x.run)
    (f : α → ExceptT ε (StateM World) β) (w : World) :
    answer (x >>= f) w = answer x w >>= fun a => answer (f a) w := by
  simp only [answer, ExceptT.run_bind, hx.run_bind]
  cases (x.run.run w).1 <;> rfl

theorem answer_mapM {f : γ → ExceptT ε (StateM World) β} (hf : ∀ x, Observing (f x).run)
    (xs : List γ) (w : World) : answer (xs.mapM f) w = xs.mapM fun x => answer (f x) w := by
  induction xs with
  | nil => rfl
  | cons x xs ih =>
    rw [List.mapM_cons, List.mapM_cons, answer_bind (hf x)]
    have hrest : Observing (xs.mapM f).run := .mapM xs fun y _ => hf y
    simp only [answer_bind hrest, ih, answer_pure]
    rfl

theorem mapM_eq_ok_iff {f : γ → Except ε β} {xs : List γ} {ys : List β} :
    xs.mapM f = .ok ys ↔ List.Forall₂ (fun x y => f x = .ok y) xs ys := by
  induction xs generalizing ys with
  | nil => cases ys <;> simp [pure, Except.pure]
  | cons x xs ih =>
    rw [List.mapM_cons]
    cases hx : f x with
    | error e => cases ys <;> simp [bind, Except.bind, hx]
    | ok y =>
      cases hxs : xs.mapM f with
      | error e => cases ys <;> simp [bind, Except.bind, hx, hxs, ← ih]
      | ok rest => cases ys <;> simp [bind, Except.bind, pure, Except.pure, hx, hxs, ← ih]

/-- To be asked for files leaves the host as it was; only writing may change it. -/
structure Host.Observes (host : Host (StateM World)) : Prop where
  read : ∀ path, Observing (host.read path)
  kind? : ∀ path, Observing (host.kind? path)
  list : ∀ path, Observing (host.list path)

theorem Disk.host_observes : Disk.host.Observes :=
  ⟨fun _ _ => rfl, fun _ _ => rfl, fun _ _ => rfl⟩

variable {host : Host (StateM World)}

theorem Host.Observes.isDirectory (h : host.Observes) (path : String) :
    Observing (host.isDirectory path) :=
  (h.kind? path).bind fun _ => .pure _

namespace Glob

variable {directoriesOnly : Bool} {fuel : Nat}

theorem observing_found (h : host.Observes) (path : String) :
    Observing (found host directoriesOnly path).run := by
  unfold found
  cases directoriesOnly
  · exact .pure _
  · exact (Observing.lift (h.isDirectory path)).andThen fun _ => .pure _

section

-- What a search with some fuel does is known; the lemmas are about one step more.
variable (hbelow : ∀ cs path, Observing (below host directoriesOnly fuel cs path).run)
  (hhere : ∀ cs path name, Observing (here host directoriesOnly fuel cs path name).run)

include hbelow

theorem observing_rest (h : host.Observes) (later : List Component) (path : String) :
    Observing (if later.isEmpty = true then found host directoriesOnly path
      else below host directoriesOnly fuel later path).run := by
  split
  · exact observing_found h path
  · exact hbelow _ _

include hhere

theorem observing_below_succ (h : host.Observes) (cs : List Component) (path : String) :
    Observing (below host directoriesOnly (fuel + 1) cs path).run := by
  unfold below
  split
  next => exact .pure _
  next => exact observing_found h _
  next path _ _ _ _ literal rest heq =>
    obtain rfl := Nat.succ.inj heq
    have hnext : ∀ there : Bool, Observing (if there = true then
        below host directoriesOnly fuel rest (placed path literal) else pure []).run := by
      intro there
      cases there
      · exact .pure _
      · exact hbelow _ _
    dsimp only
    split
    · exact (Observing.lift (h.isDirectory path)).andThen hnext
    · have hthere : Observing (liftM (host.kind? (placed path literal)) :
          ExceptT Unreadable (StateM World) _).run := .lift (h.kind? _)
      exact hthere.andThen fun _ => Observing.andThen (.pure _) hnext
  next path _ _ _ _ component rest _ heq =>
    obtain rfl := Nat.succ.inj heq
    refine (Observing.lift (h.isDirectory path)).andThen fun isDirectory => ?_
    cases isDirectory with
    | false => exact .pure _
    | true =>
      refine (Observing.lift (h.list path)).andThen fun names => ?_
      cases names with
      | error error => exact .throw _
      | ok names =>
        have hspecial := Observing.mapM (specialNames component) fun name _ =>
          hbelow rest (joinPath path name)
        have hchildren := Observing.mapM (ascending names) fun name _ =>
          hhere (component :: rest) (placed path name) name
        exact hspecial.andThen fun _ => hchildren.andThen fun _ => .pure _

theorem observing_here_succ (h : host.Observes) (cs : List Component) (path name : String) :
    Observing (here host directoriesOnly (fuel + 1) cs path name).run := by
  unfold here
  split
  next => exact .pure _
  next => exact .pure _
  next path name _ _ _ _ _ rest heq =>
    obtain rfl := Nat.succ.inj heq
    have hdirectory : Observing (liftM (host.isDirectory path) :
        ExceptT Unreadable (StateM World) _).run := .lift (h.isDirectory path)
    split
    next => exact hhere _ _ _
    next =>
      refine hdirectory.andThen fun isDirectory => ?_
      cases isDirectory with
      | false => exact .pure _
      | true => exact (hbelow _ _).andThen fun _ => .pure _
    next component later _ =>
      have hdeeper : ∀ itself : List String, Observing (do
          if ← host.isDirectory path then do
            let deeper ← below host directoriesOnly fuel (.directories :: component :: later) path
            pure (itself ++ deeper)
          else do
            let deeper ← pure []
            pure (itself ++ deeper) : ExceptT Unreadable (StateM World) (List String)).run := by
        intro itself
        refine hdirectory.andThen fun isDirectory => ?_
        cases isDirectory with
        | false => exact .pure _
        | true => exact (hbelow _ _).andThen fun _ => .pure _
      dsimp only
      split
      · exact (observing_rest hbelow h later path).andThen hdeeper
      · exact Observing.andThen (.pure _) hdeeper
  next path name _ _ _ _ _ component later _ heq =>
    obtain rfl := Nat.succ.inj heq
    split
    · exact observing_rest hbelow h later path
    · exact .pure _

end

theorem observing_below_and_here (h : host.Observes) (fuel : Nat) :
    (∀ cs path, Observing (below host directoriesOnly fuel cs path).run) ∧
      ∀ cs path name, Observing (here host directoriesOnly fuel cs path name).run := by
  induction fuel with
  | zero =>
    constructor
    · intro cs path
      rw [below]
      exact .pure _
    · intro cs path name
      rw [here]
      exact .pure _
  | succ fuel ih =>
    obtain ⟨hbelow, hhere⟩ := ih
    exact ⟨observing_below_succ hbelow hhere h, observing_here_succ hbelow hhere h⟩

theorem observing_search (h : host.Observes) (pattern : Pattern) :
    Observing (search host pattern) :=
  (observing_below_and_here h _).1 _ _

theorem observing_paths (h : host.Observes) (text : String) : Observing (paths host text) := by
  unfold paths
  cases Pattern.parse text with
  | error fault => exact .pure _
  | ok pattern =>
    refine (observing_search h pattern).bind fun result => ?_
    cases result <;> exact .pure _

end Glob

/-- To look for files with these tools leaves everything as it was. -/
def Tools.Observes (tools : Tools (StateM World)) : Prop :=
  ∀ pattern, Observing (tools.glob pattern)

theorem Tools.own_observes (h : host.Observes) : (Tools.own host).Observes :=
  Glob.observing_paths h

variable {tools : Tools (StateM World)}

/-! ## Inputs -/

theorem observing_resolveInput (h : tools.Observes) (input : String) :
    Observing (resolveInput tools input).run := by
  unfold resolveInput
  split
  · refine (Observing.lift (h input)).andThen fun result => ?_
    cases result with
    | error fault => exact .throw _
    | ok found =>
      dsimp only
      split
      · exact .throw _
      · exact .throw _
      · exact .pure _
  · exact .pure _

def filesOf (tools : Tools (StateM World)) (w : World) (input : String) :
    Except ResolutionError (List String) :=
  answer (resolveInput tools input) w

theorem filesOf_ne_nil (h : tools.Observes) {w : World} {input : String} {files : List String}
    (hf : filesOf tools w input = .ok files) : files ≠ [] := by
  unfold filesOf resolveInput at hf
  split at hf
  · have hglob : Observing (liftM (tools.glob input) :
        ExceptT ResolutionError (StateM World) _).run := .lift (h input)
    simp only [answer_bind hglob, answer_lift] at hf
    change answer _ w = .ok files at hf
    cases hg : ((tools.glob input).run w).1 with
    | error fault =>
      rw [hg] at hf
      cases hf
    | ok found =>
      rw [hg] at hf
      dsimp only at hf
      split at hf
      · cases hf
      · cases hf
      next hne _ =>
        obtain rfl := Except.ok.inj hf
        exact hne
  · obtain rfl : [input] = files := Except.ok.inj hf
    simp

theorem resolveInputs_eq_ok_iff (h : tools.Observes) {w : World} {inputs files : List String} :
    ((resolveInputs tools inputs).run w).1 = .ok files ↔
      ∃ resolved, List.Forall₂ (fun input own => filesOf tools w input = .ok own) inputs resolved ∧
        files = resolved.flatten := by
  have hall : ∀ input, Observing (resolveInput tools input).run := observing_resolveInput h
  have heq : ((resolveInputs tools inputs).run w).1 =
      inputs.mapM (filesOf tools w) >>= fun resolved => .ok resolved.flatten := by
    change answer (inputs.mapM (resolveInput tools) >>= fun resolved => pure resolved.flatten) w = _
    rw [answer_bind (.mapM inputs fun input _ => hall input), answer_mapM hall]
    rfl
  rw [heq]
  constructor
  · intro hok
    cases hm : inputs.mapM (filesOf tools w) with
    | error e =>
      rw [hm] at hok
      cases hok
    | ok resolved =>
      rw [hm] at hok
      obtain rfl : resolved.flatten = files := Except.ok.inj hok
      exact ⟨resolved, mapM_eq_ok_iff.mp hm, rfl⟩
  · rintro ⟨resolved, hr, rfl⟩
    rw [mapM_eq_ok_iff.mpr hr]
    rfl

theorem observing_resolveInputs (h : tools.Observes) (inputs : List String) :
    Observing (resolveInputs tools inputs) := by
  have hall : Observing (inputs.mapM (resolveInput tools)).run :=
    .mapM inputs fun input _ => observing_resolveInput h input
  exact hall.andThen fun _ => .pure _

end ExactlyOne
