import EditableLisp.Proofs.Editing
import EditableLisp.Proofs.Stepping

/-!
# Sessions

A `Session` is a world together with what a host holds: values, frames of its own, and runs of the machine
that it takes step by step. `Session.Step` is anything that a host can do with a world: it reads, makes
values, evaluates, calls and expands, prints, invalidates, copies and edits, binds names, and takes a step
of a run. A request that fails leaves the world as it was when it failed, and so does an evaluation that
runs out of steps, so the sessions that can be reached include those in the middle of every evaluation.

`Session.Has`: all values that are within reach in a session, on whatever way. `Session.Reachable.exists_sound`
says that in every session that can be reached they are the values of one registry, and
`Session.Later.exists_sound` that the registry only grows.
-/

namespace EditableLisp

open Registry

/-! ## Values of states -/

/-- The values that a built-in function holds while it waits. -/
def Job.values : Job → List Value
  | .collect f _ rest done => f :: (rest ++ done.toList)
  | .keep f _ current rest done => f :: current :: (rest ++ done.toList)
  | .pass => []
  | .store _ => []

/-- The values of entries, with their keys. -/
def Entries.values (entries : Entries) : List Value := entries.flatMap fun e => [e.1.toValue, e.2]

/-- The values that a pending step holds. -/
def Pending.values : Pending → List Value
  | .body _ rest _ => rest
  | .head call _ => [call.toValue]
  | .args f call rest done _ => f :: call.toValue :: (rest ++ done.toList)
  | .branch yes no _ => yes :: no.toList
  | .definition _ call _ => [call.toValue]
  | .binding _ pattern rest call _ => pattern :: call.toValue :: rest
  | .quasi _ _ rest done _ _ => rest ++ done.toList
  | .expansion call maker _ _ => [call.toValue, maker]
  | .evaluate _ => []
  | .conjunction _ rest _ => rest
  | .disjunction _ rest _ => rest
  | .vector _ rest done _ => rest ++ done.toList
  | .map _ key rest done _ => key.toValue :: (Entries.values rest ++ Entries.values done.toList)
  | .memo nodes => nodes
  | .job j => j.values

/-- The values in control. -/
def Control.values : Control → List Value
  | .eval form _ => [form]
  | .quasi form _ => [form]
  | .ret v => [v]
  | .call f args => f :: args
  | .landed v => [v]

/-- The values that a state of the machine holds. -/
def State.values (s : State) : List Value := s.control.values ++ s.stack.flatMap Pending.values

/-- The values that are kept on a call. -/
def Expansion.values : Expansion → List Value
  | .constant maker form reads => maker :: form :: reads.map Lookup.value
  | .bound maker template _ => [maker, template]
  | .unchanged => []

/-! ## Sessions -/

/-- A world with what a host holds. -/
structure Session where
  world : World
  held : List Value
  /-- Frames that the host made. -/
  frames : List Env
  /-- Runs that the host takes step by step. -/
  runs : List State

namespace Session

/-- The values within reach: what the host holds, what the world keeps, what the runs hold, and all parts
of these. -/
inductive Has (s : Session) : Value → Prop where
  | held {v : Value} : v ∈ s.held → Has s v
  | item {shape : Shape} {node : Node} {items : List Value} {v : Value} :
      Has s (.seq shape node items) → v ∈ items → Has s v
  | entry {node : Node} {entries : Entries} {v : Value} :
      Has s (.map node entries) → v ∈ Entries.values entries → Has s v
  | builtinData {id : NodeId} {code : Builtin} {data : Value} : Has s (.builtin id code data) → Has s data
  | closurePart {id : NodeId} {kind : ClosureKind} {params body data : Value} {env : Env} {v : Value} :
      Has s (.closure id kind params body env data) → v ∈ [params, body, data] → Has s v
  | binding {id : FrameId} {name : String} {b : Binding} {v : Value} :
      (name, b) ∈ s.world.frame id → v ∈ b.value :: b.site.toList → Has s v
  | content {v : Value} : v ∈ s.world.atoms → Has s v
  | result {id : NodeId} {v : Value} : s.world.results.get? id = some v → Has s v
  | site {id : NodeId} {v : Value} : s.world.sites.get? id = some v → Has s v
  | expansion {id : NodeId} {e : Expansion} {v : Value} :
      s.world.expansions.get? id = some e → v ∈ e.values → Has s v
  | recorded {reads : List Lookup} {l : Lookup} :
      reads ∈ s.world.recordings → l ∈ reads → Has s l.value
  | running {state : State} {v : Value} : state ∈ s.runs → v ∈ state.values → Has s v

/-- The frames within reach of a host: the root, those that it made, and those of closures. -/
inductive HasFrame (s : Session) : Env → Prop where
  | global : HasFrame s .global
  | own {env : Env} : env ∈ s.frames → HasFrame s env
  | closure {id : NodeId} {kind : ClosureKind} {params body data : Value} {env : Env} :
      s.Has (.closure id kind params body env data) → HasFrame s env

/-! ## Requests -/

/-- What a host asks of a world. -/
inductive Request where
  | readProgram (src : String)
  | readForm (src : String)
  | decode (text : String)
  | symbol (name : String)
  | sequence (shape : Shape) (items : List Value)
  | map (pairs : Entries)
  | atom (content : Value)
  | evaluate (fuel : Nat) (form : Value) (env : Env)
  | apply (fuel : Nat) (f : Value) (args : List Value)
  | macroexpand (fuel : Nat) (form : Value)
  | expand (form : Value)
  | print (v : Value)
  | printPlain (v : Value)
  | invalidate (v : Value)
  | copy (v : Value)
  | replaceChild (owner : Value) (index : Nat) (child : Value)
  | replaceNode (root : Value) (id : Nat) (v : Value)
  | define (env : Env) (name : String) (v : Value)
  | defineAt (env : Env) (name : String) (v site : Value)

namespace Request

/-- The values that a request names. -/
def values : Request → List Value
  | sequence _ items => items
  | map pairs => Entries.values pairs
  | atom content => [content]
  | evaluate _ form _ => [form]
  | apply _ f args => f :: args
  | macroexpand _ form => [form]
  | expand form => [form]
  | print v => [v]
  | printPlain v => [v]
  | invalidate v => [v]
  | copy v => [v]
  | replaceChild owner _ child => [owner, child]
  | replaceNode root _ v => [root, v]
  | define _ _ v => [v]
  | defineAt _ _ v site => [v, site]
  | _ => []

/-- The frame that a request names. -/
def frame? : Request → Option Env
  | evaluate _ _ env => some env
  | define env _ _ => some env
  | defineAt env _ _ _ => some env
  | _ => none

/-- Serves a request. The result is the values that the host gets. -/
def run : Request → Act (List Value)
  | readProgram src => do
    match ← EditableLisp.readProgram src with
    | .ok p => return [p]
    | .error _ => return []
  | readForm src => do
    match ← EditableLisp.readForm src with
    | .ok v => return [v]
    | .error _ => return []
  | decode text => do return [← decodeJson text]
  | symbol name => do return [← newSymbol name]
  | sequence shape items => do return [← newSeq shape items]
  | map pairs => do return [← newMap (Entries.ofPairs pairs)]
  | atom content => do return [← newAtom content]
  | evaluate fuel form env => do return [← evalIn fuel form env]
  | apply fuel f args => do return [← applyValue fuel f args]
  | macroexpand fuel form => do return [← expandForm fuel form]
  | expand form => do return [← expandedForm form]
  | print v => do return [.text (← EditableLisp.print v)]
  | printPlain v => do return [.text (← EditableLisp.printPlain v)]
  | invalidate v => do
    EditableLisp.invalidate v
    return []
  | copy v => do return [← deepCopy v]
  | replaceChild owner index child => do return [← owner.replaceChild index child]
  | replaceNode root id v => do return [(← (Tree.ofValue root).replace id v).1.root]
  | define env name v => do
    EditableLisp.define env name v
    return []
  | defineAt env name v site => do
    EditableLisp.defineAt env name v site
    return []

end Request

/-! ## Steps -/

/-- A session goes over into another. -/
inductive Step (s : Session) : Session → Prop where
  | served {r : Request} {vs : List Value} {w : World} : (∀ v ∈ r.values, s.Has v) →
      (∀ env, r.frame? = some env → s.HasFrame env) → r.run s.world = .ok vs w →
      Step s { s with world := w, held := vs ++ s.held }
  | failed {r : Request} {h : Halt} {w : World} : (∀ v ∈ r.values, s.Has v) →
      (∀ env, r.frame? = some env → s.HasFrame env) → r.run s.world = .error h w →
      Step s { s with world := w }
  | take {v : Value} : s.Has v → Step s { s with held := v :: s.held }
  | newFrame {env : Env} : s.HasFrame env →
      Step s { s with
        world := (newChild env s.world).2, frames := (newChild env s.world).1 :: s.frames }
  | start {form : Value} {env : Env} : s.Has form → s.HasFrame env →
      Step s { s with runs := ⟨.eval form env, []⟩ :: s.runs }
  | startCall {f : Value} {args : List Value} : s.Has f → (∀ v ∈ args, s.Has v) →
      Step s { s with runs := ⟨.call f args, []⟩ :: s.runs }
  | advance {state next : State} {w : World} : state ∈ s.runs → Machine.step state s.world = .ok next w →
      Step s { s with world := w, runs := next :: s.runs }
  | stuck {state : State} {h : Halt} {w : World} : state ∈ s.runs →
      Machine.step state s.world = .error h w → Step s { s with world := w }

/-- A host may read a program. -/
theorem Step.read {s : Session} {src : String} {p : Value} {w : World}
    (h : EditableLisp.readProgram src s.world = (.ok p, w)) :
    s.Step { s with world := w, held := p :: s.held } := by
  have hrun : (Request.readProgram src).run s.world = .ok [p] w := by
    show ((liftM (EditableLisp.readProgram src) : Act _) >>= _) s.world = _
    rw [bind_of_eq_ok (lift_of_eq h)]
    rfl
  exact @served s (.readProgram src) [p] w nofun nofun hrun

/-- The node and the forms of a text, and the world after it was read. -/
def readForms? (src : String) (w : World) : Option (Node × List Value × World) :=
  match EditableLisp.readProgram src w with
  | (.ok (.seq .list node items), w') => some (node, items, w')
  | _ => none

theorem readForms?_eq_some {src : String} {node : Node} {items : List Value} {w w' : World}
    (h : readForms? src w = some (node, items, w')) :
    EditableLisp.readProgram src w = (.ok (.seq .list node items), w') := by
  unfold readForms? at h
  split at h
  · cases h
    assumption
  · cases h

/-- A host may read a form. -/
theorem Step.readForm {s : Session} {src : String} {v : Value} {w : World}
    (h : EditableLisp.readForm src s.world = (.ok v, w)) :
    s.Step { s with world := w, held := v :: s.held } := by
  have hrun : (Request.readForm src).run s.world = .ok [v] w := by
    show ((liftM (EditableLisp.readForm src) : Act _) >>= _) s.world = _
    rw [bind_of_eq_ok (lift_of_eq h)]
    rfl
  exact @served s (.readForm src) [v] w nofun nofun hrun

/-- A host may evaluate what is within reach. -/
theorem Step.evaluate {s : Session} {fuel : Nat} {form v : Value} {env : Env} {w : World}
    (hf : s.Has form) (he : s.HasFrame env) (h : evalIn fuel form env s.world = .ok v w) :
    s.Step { s with world := w, held := v :: s.held } := by
  have hrun : (Request.evaluate fuel form env).run s.world = .ok [v] w := by
    show (evalIn fuel form env >>= fun v => pure [v]) s.world = _
    rw [bind_of_eq_ok h]
    rfl
  refine @served s (.evaluate fuel form env) [v] w (List.forall_mem_singleton.mpr hf) ?_ hrun
  rintro other ⟨⟩
  exact he

/-- A host may print what is within reach. -/
theorem Step.print {s : Session} {v : Value} (hv : s.Has v) :
    s.Step { s with
      world := (EditableLisp.print v s.world).2, held := .text (EditableLisp.print v s.world).1 :: s.held } :=
  @served s (.print v) [.text (EditableLisp.print v s.world).1] _ (List.forall_mem_singleton.mpr hv) nofun rfl

/-- A host may edit what is within reach. -/
theorem Step.replaceNode {s : Session} {root v : Value} {id newId : Nat} {t : Tree} {w : World}
    (hr : s.Has root) (hv : s.Has v) (h : (Tree.ofValue root).replace id v s.world = .ok (t, newId) w) :
    s.Step { s with world := w, held := t.root :: s.held } := by
  have hrun : (Request.replaceNode root id v).run s.world = .ok [t.root] w := by
    show ((Tree.ofValue root).replace id v >>= fun r => pure [r.1.root]) s.world = _
    rw [bind_of_eq_ok h]
    rfl
  have hvalues : ∀ u ∈ (Request.replaceNode root id v).values, s.Has u :=
    List.forall_mem_cons.mpr ⟨hr, List.forall_mem_singleton.mpr hv⟩
  exact @served s (.replaceNode root id v) [t.root] w hvalues nofun hrun

/-- A session follows another after any number of steps. -/
inductive Later (s : Session) : Session → Prop where
  | refl : Later s s
  | step {s' s'' : Session} : Later s s' → Step s' s'' → Later s s''

/-- A host lets go of nothing. -/
theorem Later.held {s s' : Session} (h : s.Later s') {v : Value} (hv : v ∈ s.held) : v ∈ s'.held := by
  induction h with
  | refl => exact hv
  | step _ hs ih =>
    cases hs with
    | served => exact List.mem_append_right _ ih
    | take => exact List.mem_cons_of_mem _ ih
    | _ => exact ih

/-- A session that a host can come to, from a world with the built-in functions or from an empty one. -/
inductive Reachable : Session → Prop where
  | full : Reachable ⟨World.full, [], [], []⟩
  | bare : Reachable ⟨World.initial, [], [], []⟩
  | step {s s' : Session} : Reachable s → Step s s' → Reachable s'

theorem Reachable.later {s s' : Session} (h : s.Reachable) (hl : s.Later s') : s'.Reachable := by
  induction hl with
  | refl => exact h
  | step _ hs ih => exact ih.step hs

/-! ## Sound sessions -/

/-- All that a session has is known. -/
structure Sound (R : Registry) (s : Session) : Prop where
  world : R.Ok s.world
  free : R.Open
  global : R.InScope .global
  held : R.AllKnown s.held
  frames : ∀ env ∈ s.frames, R.InScope env
  runs : ∀ state ∈ s.runs, R.StateKnown state

variable {R R' : Registry} {s s' : Session}

theorem entriesKnown_values {entries : Entries} (h : R.EntriesKnown entries) :
    R.AllKnown (Entries.values entries) := by
  intro v hv
  obtain ⟨e, he, hm⟩ := List.mem_flatMap.mp hv
  rcases List.mem_cons.mp hm with rfl | hm
  · exact known_toValue (h e he).1
  · obtain rfl := List.mem_singleton.mp hm
    exact (h e he).2

theorem known_jobValues {job : Job} (h : R.JobKnown job) : R.AllKnown job.values := by
  cases job with
  | collect => exact List.forall_mem_cons.mpr ⟨h.1, allKnown_append.mpr h.2⟩
  | keep =>
    exact List.forall_mem_cons.mpr ⟨h.1, List.forall_mem_cons.mpr ⟨h.2.1, allKnown_append.mpr h.2.2⟩⟩
  | pass => exact allKnown_nil
  | store => exact allKnown_nil

theorem known_pendingValues {p : Pending} (h : R.PendingKnown p) : R.AllKnown p.values := by
  cases p with
  | body | conjunction | disjunction => exact h.1
  | head | definition => exact List.forall_mem_singleton.mpr h.1
  | args =>
    exact List.forall_mem_cons.mpr ⟨h.1, List.forall_mem_cons.mpr
      ⟨h.2.1, allKnown_append.mpr ⟨h.2.2.1, h.2.2.2.1⟩⟩⟩
  | branch yes no env =>
    refine List.forall_mem_cons.mpr ⟨h.1, fun v hv => h.2.1 v ?_⟩
    cases no with
    | none => cases hv
    | some u => rw [List.mem_singleton.mp hv]
  | binding => exact List.forall_mem_cons.mpr ⟨h.1, List.forall_mem_cons.mpr ⟨h.2.2.1, h.2.1⟩⟩
  | quasi | vector => exact allKnown_append.mpr ⟨h.1, h.2.1⟩
  | expansion => exact List.forall_mem_cons.mpr ⟨h.1, List.forall_mem_singleton.mpr h.2.1⟩
  | evaluate => exact allKnown_nil
  | map =>
    exact List.forall_mem_cons.mpr ⟨known_toValue h.1, allKnown_append.mpr
      ⟨entriesKnown_values h.2.1, entriesKnown_values h.2.2.1⟩⟩
  | memo => exact h
  | job => exact known_jobValues h

theorem known_stateValues {state : State} (h : R.StateKnown state) : R.AllKnown state.values := by
  refine allKnown_append.mpr ⟨?_, fun v hv => ?_⟩
  · obtain ⟨control, stack⟩ := state
    have hc := h.1
    cases control with
    | eval | quasi => exact List.forall_mem_singleton.mpr hc.1
    | ret | landed => exact List.forall_mem_singleton.mpr hc
    | call => exact List.forall_mem_cons.mpr hc
  · obtain ⟨p, hp, hm⟩ := List.mem_flatMap.mp hv
    exact known_pendingValues (h.2 p hp) v hm

/-- **All values within reach in a sound session are known.** -/
theorem Sound.known (hs : Sound R s) {v : Value} (h : s.Has v) : R.Known v := by
  induction h with
  | held h => exact hs.held _ h
  | item _ hm ih =>
    have hparts := hs.world.partsKnown ih
    exact hparts _ hm
  | entry _ hm ih =>
    have hparts := hs.world.partsKnown ih
    exact entriesKnown_values hparts.2 _ hm
  | builtinData _ ih =>
    have hparts := hs.world.partsKnown ih
    exact hparts
  | closurePart _ hm ih =>
    have hparts := hs.world.partsKnown ih
    have hall := List.forall_mem_cons.mpr ⟨hparts.1, List.forall_mem_cons.mpr
      ⟨hparts.2.1, List.forall_mem_singleton.mpr hparts.2.2.2.1⟩⟩
    exact hall _ hm
  | @binding id name b v hb hm =>
    obtain ⟨hvalue, hsite⟩ := hs.world.bindings id _ hb
    rcases List.mem_cons.mp hm with rfl | hm
    · exact hvalue
    · exact hsite v (Option.mem_toList.mp hm)
  | content hm => exact hs.world.atoms _ hm
  | result h => exact hs.world.results _ _ h
  | site h => exact hs.world.sites _ _ h
  | @expansion id e v he hm =>
    have hserves := hs.world.expansions id e he
    cases e with
    | constant maker form reads =>
      rcases List.mem_cons.mp hm with rfl | hm
      · exact hserves.1
      · rcases List.mem_cons.mp hm with rfl | hm
        · exact hserves.2.1
        · obtain ⟨l, hl, rfl⟩ := List.mem_map.mp hm
          exact hserves.2.2 l hl
    | bound maker template env =>
      have hmaker := hserves.1
      obtain ⟨-, function, params, scope, data, -, -, -, -, rfl, -⟩ := hserves
      have hparts := hs.world.partsKnown hmaker
      exact (List.forall_mem_cons.mpr ⟨hmaker, List.forall_mem_singleton.mpr hparts.2.1⟩) _ hm
    | unchanged => cases hm
  | recorded hr hl => exact hs.world.recordings _ hr _ hl
  | running hr hm => exact known_stateValues (hs.runs _ hr) _ hm

/-- All frames within reach of a host are scopes. -/
theorem Sound.inScope (hs : Sound R s) {env : Env} (h : s.HasFrame env) : R.InScope env := by
  cases h with
  | global => exact hs.global
  | own h => exact hs.frames _ h
  | closure h =>
    have hparts := hs.world.partsKnown (hs.known h)
    exact hparts.2.2.1

/-- A larger registry and its world take the place of the old ones. -/
theorem Sound.grow (hs : Sound R s) (hle : R ≤ R') {w : World} (hw : R'.Ok w) :
    Sound R' { s with world := w } where
  world := hw
  free := hs.free.mono hle
  global := hs.global.mono hle
  held := hs.held.mono hle
  frames env he := (hs.frames env he).mono hle
  runs state hr := (hs.runs state hr).mono hle

theorem keeps_expandedForm {v : Value} (hv : R.Known v) : Keeps R (liftM (expandedForm v)) Known := by
  unfold expandedForm
  split
  · rename_i node items
    rw [lift_bind]
    refine steady_liftGet.bind_keeps fun w hw => ?_
    split
    · rename_i maker form reads he
      exact Keeps.pure (hw.expansions _ _ he).2.1
    · rename_i maker template env he
      obtain ⟨hmaker, function, params, scope, data, node, items, content, vector, rfl, henv, hcall,
        hframe, hb⟩ := hw.expansions _ _ he
      have hparts := hw.partsKnown hmaker
      exact (keeps_instantiate hparts.2.1 hframe).mono fun _ _ _ h => h.1
    · exact Keeps.pure hv
    · rw [lift_bind]
      exact steady_liftGet.bind_keeps fun w hw => Keeps.pure (hw.known_evaluated hv)
  · rw [lift_bind]
    exact steady_liftGet.bind_keeps fun w hw => Keeps.pure (hw.known_evaluated hv)

/-- **Every request keeps the world ok**, and what the host gets is known. -/
theorem Request.keeps_run (r : Request) (ho : R.Open) (hv : R.AllKnown r.values)
    (he : ∀ env, r.frame? = some env → R.InScope env) : Keeps R r.run AllKnown := by
  cases r with
  | readProgram src =>
    refine Keeps.bind (EditableLisp.keeps_readProgram src) fun R' result _ hr => ?_
    split
    · exact Keeps.pure (List.forall_mem_singleton.mpr (hr _ rfl).1)
    · exact Keeps.pure allKnown_nil
  | readForm src =>
    refine Keeps.bind (EditableLisp.keeps_readForm src) fun R' result _ hr => ?_
    split
    · exact Keeps.pure (List.forall_mem_singleton.mpr (hr _ rfl).1)
    · exact Keeps.pure allKnown_nil
  | decode text => exact Keeps.single (keeps_decodeJson text)
  | symbol name => exact Keeps.single (keeps_newSymbol name)
  | sequence shape items => exact Keeps.single (keeps_newSeq hv shape)
  | map pairs =>
    refine Keeps.single (keeps_newMap_ofPairs fun e hm => ?_)
    have hall : ∀ v ∈ [e.1.toValue, e.2], R.Known v := fun v h => hv v (List.mem_flatMap.mpr ⟨e, hm, h⟩)
    obtain ⟨hk, hrest⟩ := List.forall_mem_cons.mp hall
    refine ⟨?_, List.forall_mem_singleton.mp hrest⟩
    generalize e.1 = k at hk
    cases k with
    | keyword => exact hk
    | text => trivial
  | atom content =>
    exact Keeps.single ((steady_newAtom (List.forall_mem_singleton.mp hv)).keeps fun _ h => h)
  | evaluate fuel form env =>
    exact Keeps.single (keeps_evalIn fuel ho (List.forall_mem_singleton.mp hv) (he env rfl))
  | apply fuel f args =>
    obtain ⟨hf, ha⟩ := allKnown_cons.mp hv
    exact Keeps.single (keeps_applyValue fuel ho hf ha)
  | macroexpand fuel form => exact Keeps.single (keeps_expandForm fuel ho (List.forall_mem_singleton.mp hv))
  | expand form => exact Keeps.single (keeps_expandedForm (List.forall_mem_singleton.mp hv))
  | print v =>
    refine (steady_print (List.forall_mem_singleton.mp hv)).bind_keeps fun _ _ => Keeps.pure ?_
    exact List.forall_mem_singleton.mpr trivial
  | printPlain v =>
    refine (steady_printPlain (List.forall_mem_singleton.mp hv)).bind_keeps fun _ _ => Keeps.pure ?_
    exact List.forall_mem_singleton.mpr trivial
  | invalidate v => exact (steady_invalidate v).bind_keeps fun _ _ => Keeps.pure allKnown_nil
  | copy v =>
    exact Keeps.single ((keeps_deepCopy (List.forall_mem_singleton.mp hv)).mono fun _ _ _ h => h.1)
  | replaceChild owner index child =>
    obtain ⟨ho, hc⟩ := allKnown_cons.mp hv
    exact Keeps.single (keeps_replaceChild ho (List.forall_mem_singleton.mp hc) index)
  | replaceNode root id v =>
    obtain ⟨hr, hv⟩ := allKnown_cons.mp hv
    refine Keeps.bind (Tree.keeps_replace hr (List.forall_mem_singleton.mp hv) id) fun R' result _ h => ?_
    exact Keeps.pure (List.forall_mem_singleton.mpr h)
  | define env name v =>
    refine (steady_define (he env rfl).writable (List.forall_mem_singleton.mp hv) name).bind_keeps ?_
    exact fun _ _ => Keeps.pure allKnown_nil
  | defineAt env name v site =>
    obtain ⟨hv, hsite⟩ := allKnown_cons.mp hv
    refine (steady_defineAt (he env rfl).writable hv (List.forall_mem_singleton.mp hsite) name).bind_keeps ?_
    exact fun _ _ => Keeps.pure allKnown_nil

/-- **A step of a sound session comes to a sound session**, and what was known stays known. -/
theorem Step.exists_sound (h : s.Step s') (hs : Sound R s) : ∃ R', R ≤ R' ∧ Sound R' s' := by
  cases h with
  | @served r vs w hv he hr =>
    obtain ⟨R', hle, hdone⟩ := r.keeps_run hs.free (fun v hm => hs.known (hv v hm))
      (fun env hf => hs.inScope (he env hf)) s.world hs.world
    rw [hr] at hdone
    have hgrown := hs.grow hle hdone.1
    exact ⟨R', hle, { hgrown with held := allKnown_append.mpr ⟨hdone.2, hgrown.held⟩ }⟩
  | @failed r h w hv he hr =>
    obtain ⟨R', hle, hdone⟩ := r.keeps_run hs.free (fun v hm => hs.known (hv v hm))
      (fun env hf => hs.inScope (he env hf)) s.world hs.world
    rw [hr] at hdone
    exact ⟨R', hle, hs.grow hle hdone⟩
  | take hv => exact ⟨R, le_refl R, { hs with held := List.forall_mem_cons.mpr ⟨hs.known hv, hs.held⟩ }⟩
  | @newFrame env he =>
    obtain ⟨R', hle, hok, hframe⟩ := keeps_newScope (hs.inScope he) s.world hs.world
    have hgrown := hs.grow hle hok
    exact ⟨R', hle, { hgrown with frames := List.forall_mem_cons.mpr ⟨hframe, hgrown.frames⟩ }⟩
  | start hf he =>
    have hstate := And.intro (And.intro (hs.known hf) (hs.inScope he)) (@stackKnown_nil R)
    exact ⟨R, le_refl R, { hs with runs := List.forall_mem_cons.mpr ⟨hstate, hs.runs⟩ }⟩
  | startCall hf ha =>
    have hstate := And.intro (And.intro (hs.known hf) fun v hv => hs.known (ha v hv)) (@stackKnown_nil R)
    exact ⟨R, le_refl R, { hs with runs := List.forall_mem_cons.mpr ⟨hstate, hs.runs⟩ }⟩
  | @advance state next w hm hstep =>
    obtain ⟨R', hle, hdone⟩ := Machine.keeps_step hs.free (hs.runs state hm) s.world hs.world
    rw [hstep] at hdone
    have hgrown := hs.grow hle hdone.1
    exact ⟨R', hle, { hgrown with runs := List.forall_mem_cons.mpr ⟨hdone.2, hgrown.runs⟩ }⟩
  | @stuck state h w hm hstep =>
    obtain ⟨R', hle, hdone⟩ := Machine.keeps_step hs.free (hs.runs state hm) s.world hs.world
    rw [hstep] at hdone
    exact ⟨R', hle, hs.grow hle hdone⟩

/-- **What is known in a session stays known in every later one.** -/
theorem Later.exists_sound (h : s.Later s') (hs : Sound R s) : ∃ R', R ≤ R' ∧ Sound R' s' := by
  induction h with
  | refl => exact ⟨R, le_refl R, hs⟩
  | step _ hstep ih =>
    obtain ⟨R₁, hle, hs₁⟩ := ih
    obtain ⟨R₂, hle', hs₂⟩ := hstep.exists_sound hs₁
    exact ⟨R₂, le_trans hle hle', hs₂⟩

/-! ## First sessions -/

/-- The registry of a world with an empty root frame. -/
def firstRegistry : Registry where
  node _ := none
  frame id := if id = 0 then some .scope else none
  keyword _ := none
  code _ := True

theorem ok_initial : firstRegistry.Ok World.initial where
  tables id := by
    have hempty : World.initial.tables id = .empty := by
      unfold World.tables World.initial
      rw [Array.getD_eq_getD_getElem?]
      cases id <;> rfl
    rw [hempty]
    exact ⟨nofun, nofun⟩
  atoms _ h := by cases Array.not_mem_empty _ h
  results _ _ h := by
    rw [World.initial, Table.get?_empty] at h
    cases h
  sites _ _ h := by
    rw [World.initial, Table.get?_empty] at h
    cases h
  expansions _ _ h := by
    rw [World.initial, Table.get?_empty] at h
    cases h
  recordings _ h := by cases h
  derived _ h := by
    rcases h with h | h | h <;> cases h
  texts _ _ h := by
    rw [World.initial, Table.get?_empty] at h
    cases h
  spaced id h := by
    unfold World.initial Table.has at h
    rw [Table.get?_empty] at h
    cases h
  nodes id := ⟨fun h => absurd h (Nat.not_lt_zero id), nofun⟩
  parts _ _ h := by cases h
  layouts _ _ h := by cases h
  frames id := by
    show id < 1 ↔ (if id = 0 then some FrameUse.scope else none).isSome
    by_cases hid : id = 0
    · simp [hid]
    · rw [if_neg hid]
      exact ⟨fun h => absurd (Nat.lt_one_iff.mp h) hid, nofun⟩
  settled id content h := by
    have h' : (if id = 0 then some FrameUse.scope else none) = some (.template (some content)) := h
    split at h'
    · cases h'
    · cases h'
  keywords _ := rfl
  names := List.nodup_nil

theorem inScope_global : firstRegistry.InScope .global :=
  ⟨List.forall_mem_singleton.mpr rfl, .global⟩

theorem keeps_installAll (functions : List Builtin) (hg : R.InScope .global) :
    Keeps R (liftM (installAll functions)) fun _ _ => True := by
  induction functions generalizing R with
  | nil => exact Keeps.pure trivial
  | cons b rest ih =>
    unfold installAll
    rw [lift_bind]
    refine Keeps.bind (keeps_freshId (k := fun id => .builtin id b .nil) (fun _ => trivial)
      fun _ => Value.isLaidOut_of_node?_eq_none rfl) fun R' id hle h => ?_
    have hknown : R'.Known (.builtin id b .nil) := h
    rw [lift_bind]
    exact (steady_define (hg.mono hle).writable hknown b.name).bind_keeps fun _ _ => ih (hg.mono hle)

/-- A session that a host starts with is sound if its world is ok. -/
theorem Sound.first {w : World} (hw : R.Ok w) (hle : firstRegistry ≤ R) : Sound R ⟨w, [], [], []⟩ :=
  ⟨hw, Open.mono (fun _ => trivial) hle, inScope_global.mono hle, allKnown_nil, nofun, nofun⟩

/-- The world with the built-in functions is ok. -/
theorem exists_ok_full : ∃ R, firstRegistry ≤ R ∧ R.Ok World.full := by
  have hkeeps : Keeps firstRegistry (liftM (installAll (Builtin.functions ++ Builtin.expanders) >>=
      fun _ => define .global "PI" (.num pi))) fun _ _ => True := by
    rw [lift_bind]
    refine Keeps.bind (keeps_installAll _ inScope_global) fun R' _ hle _ => ?_
    exact (steady_define (v := .num pi) (inScope_global.mono hle).writable trivial _).keeps fun _ h => h
  exact hkeeps.exists_ok ok_initial

/-- **Every session that can be reached is sound.** -/
theorem Reachable.exists_sound (h : s.Reachable) : ∃ R, Sound R s := by
  induction h with
  | full =>
    obtain ⟨R, hle, hok⟩ := exists_ok_full
    exact ⟨R, .first hok hle⟩
  | bare => exact ⟨firstRegistry, .first ok_initial (le_refl _)⟩
  | step _ hstep ih =>
    obtain ⟨R, hs⟩ := ih
    obtain ⟨R', -, hs'⟩ := hstep.exists_sound hs
    exact ⟨R', hs'⟩

end Session

end EditableLisp
