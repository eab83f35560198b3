import EditableLisp.Expansion
import EditableLisp.Proofs.Binding
import EditableLisp.Proofs.Drawing
import EditableLisp.Proofs.Layouts

/-!
# Registries

A value is a tree, but its nodes and functions have identities, and what the world keeps is kept under the
identities. A `Registry` says which value each identity that was given out stands for, what each frame is
for, and which name each keyword has.

* `R.Known v`: the value `v` is the one that is registered under its identity.
* `R.code v`: `v` may be the body of a function. A registry is `Open` if everything may be.
* `R.Ok w`: every value in the world is known, every collection is laid out, every kept text is that of its
  node, and every template that stands for a call has the parameters of the call bound in a frame of its own,
  whose content is settled.
* `Keeps R act Q`: from a world that is ok the act comes to one that is ok for a larger registry, whether it
  succeeds or not, and `Q` holds of its result. `Steady R act Q` says the same of an act that registers
  nothing.

Each operation on the world has one rule (`keeps_newSeq`, `steady_setResult` and so on); what is built from
the operations by sequence keeps the world ok by `Keeps.bind` and `Steady.bind`.
-/

namespace EditableLisp

/-! ## Chains -/

/-- A chain ends at the global frame, which stands nowhere else in it. -/
def Env.IsRooted (env : Env) : Prop :=
  ∃ inner, env.frames = inner ++ [Env.global.frame] ∧ Env.global.frame ∉ inner

namespace Env.IsRooted

variable {env : Env}

theorem global : Env.global.IsRooted := ⟨[], rfl, List.not_mem_nil⟩

theorem mem_frames (h : env.IsRooted) : Env.global.frame ∈ env.frames := by
  obtain ⟨inner, he, -⟩ := h
  rw [he]
  exact List.mem_append_right _ List.mem_cons_self

theorem child {id : FrameId} (h : env.IsRooted) (hid : id ≠ Env.global.frame) :
    (env.child id).IsRooted := by
  obtain ⟨inner, he, hn⟩ := h
  refine ⟨id :: inner, ?_, ?_⟩
  · show id :: env.frames = _
    rw [he]
    rfl
  · exact List.not_mem_cons_of_ne_of_not_mem hid.symm hn

/-- The frame without a parent is the global one. -/
theorem rootFrame_eq (h : env.IsRooted) : env.rootFrame = Env.global.frame := by
  obtain ⟨inner, he, -⟩ := h
  rw [Env.rootFrame, he, List.getLastD_concat]

theorem root (h : env.IsRooted) : env.root.IsRooted := by
  rw [Env.root, h.rootFrame_eq]
  exact global

end Env.IsRooted

/-! ## Registries -/

/-- What a frame is for. -/
inductive FrameUse where
  /-- It is a scope: whoever has a chain with it may write it. -/
  | scope
  /-- It binds the parameters of a template; once they are bound, its content is settled. -/
  | template (content : Option Frame)

/-- What the identities of a world stand for, and what the bodies of its functions are among. -/
structure Registry where
  node : NodeId → Option Value
  frame : FrameId → Option FrameUse
  keyword : Nat → Option String
  code : Value → Prop

namespace Registry

/-- A larger registry has everything that a smaller one has, and no more is code. -/
instance : LE Registry where
  le R R' := (∀ id v, R.node id = some v → R'.node id = some v) ∧
    (∀ id use, R.frame id = some use → R'.frame id = some use) ∧
    (∀ i name, R.keyword i = some name → R'.keyword i = some name) ∧ R'.code = R.code

variable {R R' R'' : Registry}

theorem le_refl (R : Registry) : R ≤ R := ⟨fun _ _ h => h, fun _ _ h => h, fun _ _ h => h, rfl⟩

theorem le_trans (h : R ≤ R') (h' : R' ≤ R'') : R ≤ R'' :=
  ⟨fun id v e => h'.1 id v (h.1 id v e), fun id use e => h'.2.1 id use (h.2.1 id use e),
    fun i name e => h'.2.2.1 i name (h.2.2.1 i name e), h'.2.2.2.trans h.2.2.2⟩

/-- Everything may be the body of a function. -/
def Open (R : Registry) : Prop := ∀ v, R.code v

theorem Open.mono (h : R.Open) (hle : R ≤ R') : R'.Open := by
  intro v
  rw [hle.2.2.2]
  exact h v

/-! ## Known values -/

/-- A value is the one that is registered under its identity. -/
def Known (R : Registry) : Value → Prop
  | .keyword k => R.keyword k.id = some k.name
  | .symbol id name => R.node id = some (.symbol id name)
  | .seq shape node items => R.node node.id = some (.seq shape node items)
  | .map node entries => R.node node.id = some (.map node entries)
  | .builtin id code data => R.node id = some (.builtin id code data)
  | .closure id kind params body env data => R.node id = some (.closure id kind params body env data)
  | _ => True

/-- A key that is a keyword is registered. -/
def KnownKey (R : Registry) : Key → Prop
  | .keyword k => R.keyword k.id = some k.name
  | .text _ => True

/-- All of some values are known. -/
def AllKnown (R : Registry) (vs : List Value) : Prop := ∀ v ∈ vs, R.Known v

/-- The keys and values of entries are known. -/
def EntriesKnown (R : Registry) (entries : Entries) : Prop :=
  ∀ e ∈ entries, R.KnownKey e.1 ∧ R.Known e.2

/-- Every frame of a chain is a scope, and the chain ends at the global one. -/
def InScope (R : Registry) (env : Env) : Prop :=
  (∀ id ∈ env.frames, R.frame id = some .scope) ∧ env.IsRooted

/-- The parts of a value are known, the keys of a map differ, and the body of a function is code. -/
def PartsKnown (R : Registry) : Value → Prop
  | .seq _ _ items => R.AllKnown items
  | .map _ entries => (Entries.names entries).Nodup ∧ R.EntriesKnown entries
  | .builtin _ _ data => R.Known data
  | .closure _ _ params body env data =>
    R.Known params ∧ R.Known body ∧ R.InScope env ∧ R.Known data ∧ R.code body
  | _ => True

/-- The values that some lookups found are known. -/
def LookupsKnown (R : Registry) (reads : List Lookup) : Prop := ∀ l ∈ reads, R.Known l.value

/-- What a call was expanded to is known. A template that stands for it is the body of a registered
expander, and the frame at hand binds the expander's parameters to the forms of the registered call. -/
def Serves (R : Registry) (id : NodeId) : Expansion → Prop
  | .constant maker form reads => R.Known maker ∧ R.Known form ∧ R.LookupsKnown reads
  | .bound maker template env => R.Known maker ∧ ∃ function params scope data node items content vector,
    maker = .closure function .template params template scope data ∧ env = scope.child env.frame ∧
    R.node id = some (.seq .list node items) ∧ R.frame env.frame = some (.template (some content)) ∧
    Pattern.Binds params (.seq .vector (.bare vector) items.tail) [] content
  | .unchanged => True

theorem Known.mono {v : Value} (h : R.Known v) (hle : R ≤ R') : R'.Known v := by
  cases v with
  | keyword k => exact hle.2.2.1 _ _ h
  | symbol | seq | map | builtin | closure => exact hle.1 _ _ h
  | _ => trivial

theorem KnownKey.mono {k : Key} (h : R.KnownKey k) (hle : R ≤ R') : R'.KnownKey k := by
  cases k with
  | keyword k => exact hle.2.2.1 _ _ h
  | text => trivial

theorem AllKnown.mono {vs : List Value} (h : R.AllKnown vs) (hle : R ≤ R') : R'.AllKnown vs :=
  fun v hv => (h v hv).mono hle

theorem EntriesKnown.mono {entries : Entries} (h : R.EntriesKnown entries) (hle : R ≤ R') :
    R'.EntriesKnown entries := fun e he => ⟨(h e he).1.mono hle, (h e he).2.mono hle⟩

theorem InScope.mono {env : Env} (h : R.InScope env) (hle : R ≤ R') : R'.InScope env :=
  ⟨fun id hid => hle.2.1 _ _ (h.1 id hid), h.2⟩

theorem PartsKnown.mono {v : Value} (h : R.PartsKnown v) (hle : R ≤ R') : R'.PartsKnown v := by
  cases v with
  | seq => exact AllKnown.mono h hle
  | map => exact ⟨h.1, EntriesKnown.mono h.2 hle⟩
  | builtin => exact Known.mono h hle
  | closure =>
    exact ⟨h.1.mono hle, h.2.1.mono hle, h.2.2.1.mono hle, h.2.2.2.1.mono hle, hle.2.2.2 ▸ h.2.2.2.2⟩
  | _ => trivial

theorem Serves.mono {id : NodeId} {e : Expansion} (h : R.Serves id e) (hle : R ≤ R') :
    R'.Serves id e := by
  cases e with
  | constant => exact ⟨h.1.mono hle, h.2.1.mono hle, fun l hl => (h.2.2 l hl).mono hle⟩
  | bound =>
    obtain ⟨hknown, function, params, scope, data, node, items, content, vector, hmaker, henv, hcall,
      hframe, hb⟩ := h
    exact ⟨hknown.mono hle, function, params, scope, data, node, items, content, vector, hmaker, henv,
      hle.1 _ _ hcall, hle.2.1 _ _ hframe, hb⟩
  | unchanged => trivial

theorem allKnown_nil : R.AllKnown [] := nofun

theorem allKnown_cons {v : Value} {vs : List Value} :
    R.AllKnown (v :: vs) ↔ R.Known v ∧ R.AllKnown vs := List.forall_mem_cons

theorem allKnown_append {vs ws : List Value} :
    R.AllKnown (vs ++ ws) ↔ R.AllKnown vs ∧ R.AllKnown ws := List.forall_mem_append

theorem entriesKnown_nil : R.EntriesKnown [] := nofun

theorem allKnown_append_array {done : Array Value} {vs : List Value} (hd : R.AllKnown done.toList)
    (hv : R.AllKnown vs) : R.AllKnown (done ++ vs).toList := by
  rw [Array.toList_appendList, allKnown_append]
  exact ⟨hd, hv⟩

theorem allKnown_push {done : Array Value} {v : Value} (hd : R.AllKnown done.toList) (hv : R.Known v) :
    R.AllKnown (done.push v).toList := by
  rw [Array.toList_push, allKnown_append]
  exact ⟨hd, allKnown_cons.mpr ⟨hv, allKnown_nil⟩⟩

theorem entriesKnown_push {done : Array (Key × Value)} {k : Key} {v : Value}
    (hd : R.EntriesKnown done.toList) (hk : R.KnownKey k) (hv : R.Known v) :
    R.EntriesKnown (done.push (k, v)).toList := by
  rw [Array.toList_push]
  exact List.forall_mem_append.mpr ⟨hd, List.forall_mem_singleton.mpr ⟨hk, hv⟩⟩

theorem AllKnown.of_subset {vs ws : List Value} (h : R.AllKnown vs) (hs : ws ⊆ vs) : R.AllKnown ws :=
  fun v hv => h v (hs hv)

theorem known_toValue {k : Key} (h : R.KnownKey k) : R.Known k.toValue := by
  cases k with
  | keyword => exact h
  | text => trivial

theorem InScope.global {env : Env} (h : R.InScope env) : R.frame Env.global.frame = some .scope :=
  h.1 _ h.2.mem_frames

theorem InScope.child {env : Env} {id : FrameId} (h : R.InScope env) (hid : R.frame id = some .scope)
    (hn : id ≠ Env.global.frame) : R.InScope (env.child id) := by
  refine ⟨fun other ho => ?_, h.2.child hn⟩
  rcases List.mem_cons.mp ho with rfl | ho
  · exact hid
  · exact h.1 other ho

theorem InScope.root {env : Env} (h : R.InScope env) : R.InScope env.root := by
  refine ⟨fun id hid => ?_, h.2.root⟩
  obtain rfl : id = env.rootFrame := List.mem_singleton.mp hid
  rw [h.2.rootFrame_eq]
  exact h.global

/-! ## Worlds -/

/-- What a world holds is known. -/
structure Holds (R : Registry) (w : World) : Prop where
  tables : ∀ id, (∀ e ∈ (w.tables id).values, R.Known e.2) ∧ ∀ e ∈ (w.tables id).defs, R.Known e.2
  atoms : ∀ v ∈ w.atoms, R.Known v
  results : ∀ id v, w.results.get? id = some v → R.Known v
  sites : ∀ id v, w.sites.get? id = some v → R.Known v
  expansions : ∀ id e, w.expansions.get? id = some e → R.Serves id e
  recordings : ∀ reads ∈ w.recordings, R.LookupsKnown reads
  /-- What is derived is derived from registered nodes. -/
  derived : ∀ id, w.results.has id ∨ w.sites.has id ∨ w.expansions.has id → (R.node id).isSome
  texts : ∀ id text, w.texts.get? id = some text →
    ∃ v, R.node id = some v ∧ v.isStable ∧ (v.isFrozen → ∀ texts, text = v.draw texts true none)
  spaced : ∀ id, w.spaced.has id → ∃ v, R.node id = some v ∧ ¬ v.Fits

/-- The value of a binding is known, and so is its form. -/
theorem Holds.bindings {w : World} (h : R.Holds w) (id : FrameId) : ∀ e ∈ w.frame id,
    R.Known e.2.value ∧ ∀ site, e.2.site = some site → R.Known site := fun _ he =>
  have hmem := Tables.mem_of_mem_bindings he
  ⟨(h.tables id).1 _ hmem.1, fun site hsite => (h.tables id).2 _ (hmem.2 site hsite)⟩

theorem Holds.mono {w : World} (h : R.Holds w) (hle : R ≤ R') : R'.Holds w where
  tables id := ⟨fun e he => ((h.tables id).1 e he).mono hle, fun e he => ((h.tables id).2 e he).mono hle⟩
  atoms v hv := (h.atoms v hv).mono hle
  results id v e := (h.results id v e).mono hle
  sites id v e := (h.sites id v e).mono hle
  expansions id e he := (h.expansions id e he).mono hle
  recordings reads hr l hl := (h.recordings reads hr l hl).mono hle
  derived id hd := by
    obtain ⟨v, hv⟩ := Option.isSome_iff_exists.mp (h.derived id hd)
    exact Option.isSome_iff_exists.mpr ⟨v, hle.1 _ _ hv⟩
  texts id text e := by
    obtain ⟨v, hv, ht⟩ := h.texts id text e
    exact ⟨v, hle.1 _ _ hv, ht⟩
  spaced id e := by
    obtain ⟨v, hv, hn⟩ := h.spaced id e
    exact ⟨v, hle.1 _ _ hv, hn⟩

/-- A registry is that of a world: it has what was given out and no more, and what the world holds is
known. -/
structure Ok (R : Registry) (w : World) : Prop extends Holds R w where
  nodes : ∀ id, id < w.nextId ↔ (R.node id).isSome
  parts : ∀ id v, R.node id = some v → R.PartsKnown v
  layouts : ∀ id v, R.node id = some v → v.IsLaidOut
  frames : ∀ id, id < w.frames.size ↔ (R.frame id).isSome
  settled : ∀ id content, R.frame id = some (.template (some content)) → w.frame id = content
  keywords : ∀ i, w.keywords[i]? = R.keyword i
  names : w.keywords.toList.Nodup

/-- A known node is what is registered under its identity. -/
theorem Known.node_eq {v : Value} (h : R.Known v) {id : NodeId} (hid : v.nodeId? = some id) :
    R.node id = some v := by
  cases v with
  | symbol | seq | map =>
    cases hid
    exact h
  | _ => cases hid

/-- The identity of a known node is registered. -/
theorem Known.isSome_node {v : Value} (h : R.Known v) {id : NodeId} (hid : v.nodeId? = some id) :
    (R.node id).isSome := Option.isSome_iff_exists.mpr ⟨v, h.node_eq hid⟩

/-- The parts of a known value are known. -/
theorem Ok.partsKnown {w : World} (h : R.Ok w) {v : Value} (hv : R.Known v) : R.PartsKnown v := by
  cases v with
  | symbol | seq | map | builtin | closure => exact h.parts _ _ hv
  | _ => trivial

/-- **A known collection is laid out.** -/
theorem Ok.isLaidOut {w : World} (h : R.Ok w) {v : Value} (hv : R.Known v) : v.IsLaidOut := by
  cases v with
  | seq | map => exact h.layouts _ _ hv
  | _ => exact Value.isLaidOut_of_node?_eq_none rfl

end Registry

end EditableLisp
