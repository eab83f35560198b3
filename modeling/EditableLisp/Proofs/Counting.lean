import Mathlib.Algebra.Ring.Nat
import Mathlib.Data.List.Perm.Subperm
import EditableLisp.Proofs.Indexing
import EditableLisp.Proofs.Merging
import EditableLisp.Proofs.Legibility

/-!
# Nodes of programs

The number of nodes of a form is what its tokens weigh (`Derives.weight`), so a text is read with fewer nodes
than it was written from where tokens ran together (`Program.clear_of_nodes`). Values that are equal have the
same number of nodes (`Value.nodes_eq_of_equal`), whatever the order of entries. So a program whose text is read
as an equal value is clear (`Program.Describes.clear_of_equal`).
-/

namespace EditableLisp

open Registry

/-! ## Forms -/

namespace Form

mutual

/-- The number of nodes of what is read as a form. A mark stands for a list and the symbol at its head. -/
def nodes : Form → Nat
  | marked _ _ form => nodes form + 2
  | seq _ _ items => nodesEach items + 1
  | map _ entries => nodesEntries entries + 1
  | _ => 1

/-- `nodes` for forms. -/
def nodesEach : List Form → Nat
  | [] => 0
  | form :: rest => nodes form + nodesEach rest

/-- `nodes` for entries; a key is one node. -/
def nodesEntries : List (FormKey × Form) → Nat
  | [] => 0
  | (_, form) :: rest => nodes form + 1 + nodesEntries rest

end

theorem nodes_of_isLeaf {form : Form} (h : form.isLeaf) : form.nodes = 1 := by
  cases form <;> first | rfl | cases h

theorem nodesEntries_eq (entries : List (FormKey × Form)) :
    nodesEntries entries = nodesEach (entryForms entries) := by
  induction entries with
  | nil => rfl
  | cons e rest ih =>
    obtain ⟨key, form⟩ := e
    have hkey : key.toForm.nodes = 1 := by cases key <;> rfl
    show form.nodes + 1 + nodesEntries rest = key.toForm.nodes + (form.nodes + nodesEach (entryForms rest))
    rw [ih, hkey]
    omega

theorem nodes_close {b : Bracket} {gaps : List String} {forms : List Form} {form : Form}
    (h : Assembly.close b gaps forms = .ok form) : form.nodes = nodesEach forms + 1 := by
  cases b with
  | round | square =>
    cases h
    rfl
  | curly =>
    obtain ⟨entries, rfl, hforms, -⟩ := exists_entries_of_close h
    rw [nodes, nodesEntries_eq, hforms]

end Form

/-- The tokens of a row of forms weigh what those of the forms weigh. -/
theorem weight_allTokens {runs : List Run} (h : ∀ r ∈ runs, Token.weight r.tokens = r.form.nodes) :
    Token.weight (Run.allTokens runs) = Form.nodesEach (Run.forms runs) := by
  induction runs with
  | nil => rfl
  | cons r rest ih =>
    obtain ⟨hr, hrest⟩ := List.forall_mem_cons.mp h
    have htokens : Run.allTokens (r :: rest) = r.tokens ++ Run.allTokens rest := rfl
    rw [htokens, Token.weight_append, hr, ih hrest]
    rfl

/-- **The tokens of a form weigh as much as the form has nodes.** -/
theorem Derives.weight {ts : List Token} {form : Form} (h : Derives ts form) : Token.weight ts = form.nodes := by
  induction h with
  | text hk =>
    rw [Token.weight_cons, hk]
    rfl
  | atom hk hf =>
    rw [Token.weight_cons, hk, Form.nodes_of_isLeaf (Form.isLeaf_ofAtom hf)]
    rfl
  | marked hk _ ih =>
    rw [Token.weight_cons, hk, ih, Nat.add_comm]
    rfl
  | collection ho _ hc hclose ih =>
    rw [Token.weight_cons, Token.weight_append, Token.weight_cons, ho, hc, weight_allTokens ih,
      Form.nodes_close hclose, Nat.add_comm]
    rfl

namespace Program

/-- The number of nodes of the forms of a program. -/
def nodes (p : Program) : Nat := Form.nodesEach p.forms

/-- **The text of a program is read with no more nodes than the program has**, and with as many only if the
program is clear. -/
theorem clear_of_nodes {p p' : Program} (h : p.Writable) (hr : ofSource p.source = .ok p') :
    p'.nodes ≤ p.nodes ∧ (p'.nodes = p.nodes → p.Clear) := by
  obtain ⟨leads, last, inside, runs, hp, hruns, hlast⟩ := h.exists_tokens
  obtain ⟨scanned', runs', hscan', htokens', hruns', rfl⟩ := derives_ofSource hr
  obtain ⟨scanned, hscan, hle, hcut⟩ := Token.weight_scan hruns.wellFormed hlast
  rw [hp, hruns.source, hscan] at hscan'
  cases hscan'
  have hweight : Token.weight (Run.allTokens runs) = p.nodes := by
    rw [weight_allTokens fun r hm => (hruns.derives r hm).weight, hruns.forms, nodes]
  have hweight' : Token.weight scanned'.tokens = Form.nodesEach (Run.forms runs') := by
    rw [htokens', weight_allTokens fun r hm => (hruns' r hm).weight]
  rw [hweight, hweight'] at hle hcut
  refine ⟨hle, fun heq => ?_⟩
  rw [hp]
  exact (hruns.cut_iff hlast).mp (hcut heq)

end Program

/-! ## Values -/

namespace Value

mutual

/-- The number of nodes of a value, itself among them. -/
def nodes : Value → Nat
  | seq _ _ items => nodesEach items + 1
  | map _ entries => nodesEntries entries + 1
  | _ => 1

/-- `nodes` for values. -/
def nodesEach : List Value → Nat
  | [] => 0
  | v :: rest => nodes v + nodesEach rest

/-- `nodes` for entries; a key is one node. -/
def nodesEntries : List (Key × Value) → Nat
  | [] => 0
  | (_, v) :: rest => nodes v + 1 + nodesEntries rest

end

theorem nodes_pos (v : Value) : 0 < v.nodes := by
  cases v <;> exact Nat.succ_pos _

theorem nodesEntries_eq_sum (es : Entries) : nodesEntries es = (es.map fun e => e.2.nodes + 1).sum := by
  induction es with
  | nil => rfl
  | cons e rest ih =>
    rw [List.map_cons, List.sum_cons, ← ih]
    rfl

/-- The form of an entry is among the keys and forms in turn. -/
theorem mem_children_map {node : Node} {es : Entries} {e : Key × Value} (he : e ∈ es) :
    e.2 ∈ (map node es).children :=
  List.mem_flatMap.mpr ⟨e, he, List.mem_cons_of_mem _ List.mem_cons_self⟩

theorem nodesEach_children (node : Node) (es : Entries) : nodesEach (map node es).children = nodesEntries es := by
  induction es with
  | nil => rfl
  | cons e rest ih =>
    have hkey : e.1.toValue.nodes = 1 := by cases e.1 <;> rfl
    show e.1.toValue.nodes + (e.2.nodes + nodesEach (map node rest).children) = e.2.nodes + 1 + nodesEntries rest
    rw [ih, hkey]
    omega

/-- Values that are equal in a row have the same number of nodes if each has. -/
theorem nodesEach_eq {us vs : List Value} (h : ∀ u ∈ us, ∀ v ∈ vs, u.equal v → u.nodes = v.nodes)
    (he : equalItems us vs) : nodesEach us = nodesEach vs := by
  induction us generalizing vs with
  | nil =>
    cases vs with
    | nil => rfl
    | cons => cases he
  | cons u us ih =>
    cases vs with
    | nil => cases he
    | cons v vs =>
      rw [equalItems, Bool.and_eq_true] at he
      obtain ⟨hu, hus⟩ := List.forall_mem_cons.mp h
      rw [nodesEach, nodesEach, hu v List.mem_cons_self he.1,
        ih (fun x hx y hy => hus x hx y (List.mem_cons_of_mem _ hy)) he.2]

/-- The number of nodes that entries have under a name. -/
def nodesUnder (es : Entries) (name : String) : Nat :=
  match es.find? (fun e => e.1.name == name) with
  | some e => e.2.nodes + 1
  | none => 0

theorem nodesUnder_of_find? {es : Entries} {name : String} {e : Key × Value}
    (h : es.find? (fun e => e.1.name == name) = some e) : nodesUnder es name = e.2.nodes + 1 := by
  unfold nodesUnder
  rw [h]

/-- The nodes of entries are counted by name, among other entries that have as many under each. -/
theorem nodesEntries_eq_names {us vs : Entries} (h : ∀ d ∈ us, nodesUnder vs d.1.name = d.2.nodes + 1) :
    nodesEntries us = ((Entries.names us).map (nodesUnder vs)).sum := by
  rw [nodesEntries_eq_sum, Entries.names, List.map_map]
  exact congrArg List.sum (List.map_congr_left fun d hd => (h d hd).symm)

/-- Equal entries have the same names, perhaps in another order. -/
theorem names_perm {us vs : Entries} (hu : (Entries.names us).Nodup) (hlen : us.length = vs.length)
    (he : equalEntries us vs) : (Entries.names us).Perm (Entries.names vs) := by
  refine (List.subperm_of_subset hu fun name hname => ?_).perm_of_length_le ?_
  · obtain ⟨d, hd, rfl⟩ := List.mem_map.mp hname
    obtain ⟨e, hfind, -⟩ := equalEntries_iff.mp he d hd
    have hsame := List.find?_some hfind
    rw [← eq_of_beq hsame]
    exact List.mem_map_of_mem (List.mem_of_find?_eq_some hfind)
  · rw [Entries.names, Entries.names, List.length_map, List.length_map]
    exact Nat.le_of_eq hlen.symm

/-- Entries that are equal whatever their order have the same number of nodes if each has. -/
theorem nodesEntries_eq {us vs : Entries} (hu : (Entries.names us).Nodup) (hv : (Entries.names vs).Nodup)
    (h : ∀ d ∈ us, ∀ e ∈ vs, d.2.equal e.2 → d.2.nodes = e.2.nodes) (hlen : us.length = vs.length)
    (he : equalEntries us vs) : nodesEntries us = nodesEntries vs := by
  have hus : nodesEntries us = ((Entries.names us).map (nodesUnder vs)).sum := nodesEntries_eq_names fun d hd => by
    obtain ⟨e, hfind, hequal⟩ := equalEntries_iff.mp he d hd
    rw [nodesUnder_of_find? hfind, h d hd e (List.mem_of_find?_eq_some hfind) hequal]
  have hvs : nodesEntries vs = ((Entries.names vs).map (nodesUnder vs)).sum := nodesEntries_eq_names fun e he =>
    nodesUnder_of_find? (Entries.find?_name hv he)
  rw [hus, hvs]
  exact ((names_perm hu hlen he).map (nodesUnder vs)).sum_nat

variable {R : Registry} {w : World}

/-- **Values that are equal have the same number of nodes.** -/
theorem nodes_eq_of_equal (hw : R.Ok w) {u v : Value} (hu : R.Known u) (hv : R.Known v) (h : u.equal v) :
    u.nodes = v.nodes := by
  induction u using ofChildren generalizing v with
  | h u ih =>
    have hchildren : ∀ x ∈ u.children, ∀ y ∈ v.children, x.equal y → x.nodes = y.nodes := fun x hx y hy =>
      ih x hx (hw.known_children hu x hx) (hw.known_children hv y hy)
    cases u with
    | seq =>
      cases v with
      | seq => exact congrArg (· + 1) (nodesEach_eq hchildren h)
      | _ => cases h
    | map node us =>
      cases v with
      | map node' vs =>
        have hequal : (us.length == vs.length && equalEntries us vs) = true := h
        rw [Bool.and_eq_true, beq_iff_eq] at hequal
        exact congrArg (· + 1) (nodesEntries_eq (hw.partsKnown hu).1 (hw.partsKnown hv).1
          (fun d hd e he => hchildren d.2 (mem_children_map hd) e.2 (mem_children_map he)) hequal.1 hequal.2)
      | _ => cases h
    | _ => cases v <;> first | rfl | cases h

end Value

/-! ## Values that are written as forms -/

namespace Form

mutual

/-- What represents a form has as many nodes. -/
theorem Represents.nodes {form : Form} {v : Value} (h : form.Represents v) : v.nodes = form.nodes := by
  match form with
  | .nil | .bool _ | .num _ _ | .text _ _ =>
    unfold Represents at h
    rw [h]
    rfl
  | .keyword _ | .symbol _ =>
    unfold Represents at h
    obtain ⟨_, rfl⟩ := h
    rfl
  | .marked style gap form =>
    unfold Represents at h
    obtain ⟨id, head, x, hx, rfl⟩ := h
    have hform := hx.nodes
    show 1 + (x.nodes + 0) + 1 = form.nodes + 2
    omega
  | .seq shape gaps items =>
    unfold Represents at h
    obtain ⟨id, vs, hvs, rfl⟩ := h
    exact congrArg (· + 1) hvs.nodes
  | .map gaps entries =>
    unfold Represents at h
    obtain ⟨id, es, hes, rfl⟩ := h
    exact congrArg (· + 1) hes.nodes

/-- `Represents.nodes` for forms. -/
theorem RepresentsEach.nodes {forms : List Form} {vs : List Value} (h : RepresentsEach forms vs) :
    Value.nodesEach vs = nodesEach forms := by
  match forms with
  | [] =>
    unfold RepresentsEach at h
    rw [h]
    rfl
  | form :: rest =>
    unfold RepresentsEach at h
    obtain ⟨x, xs, hx, hxs, rfl⟩ := h
    rw [Value.nodesEach, nodesEach, hx.nodes, hxs.nodes]

/-- `Represents.nodes` for entries. -/
theorem RepresentsEntries.nodes {entries : List (FormKey × Form)} {es : Entries}
    (h : RepresentsEntries entries es) : Value.nodesEntries es = nodesEntries entries := by
  match entries with
  | [] =>
    unfold RepresentsEntries at h
    rw [h]
    rfl
  | (key, form) :: rest =>
    unfold RepresentsEntries at h
    obtain ⟨k, x, xs, hk, hx, hxs, rfl⟩ := h
    rw [Value.nodesEntries, nodesEntries, hx.nodes, hxs.nodes]

end

/-- Forms have no more nodes than values in a row if none has. -/
theorem nodesEach_le {forms : List Form} {vs : List Value} (hlen : vs.length = forms.length)
    (h : ∀ (i : Nat) part v, forms[i]? = some part → vs[i]? = some v → part.nodes ≤ v.nodes) :
    nodesEach forms ≤ Value.nodesEach vs := by
  induction forms generalizing vs with
  | nil => exact Nat.zero_le _
  | cons form rest ih =>
    cases vs with
    | nil => cases hlen
    | cons v vs =>
      exact Nat.add_le_add (h 0 form v rfl rfl) (ih (Nat.succ.inj hlen) fun i => h (i + 1))

/-- A value has at least as many nodes as the form that it is written as: more may be hidden behind marks. -/
theorem Describes.nodes_le {form : Form} {spelling : Option String} {v : Value} (h : form.Describes spelling v) :
    form.nodes ≤ v.nodes := by
  induction h with
  | @leaf form spelling v _ hv =>
    have hleaf : form.nodes = 1 := nodes_of_isLeaf (by cases form <;> first | rfl | cases hv)
    rw [hleaf]
    exact v.nodes_pos
  | @marked gap form spelling node head v _ _ _ ih =>
    have hhead := head.nodes_pos
    show form.nodes + 2 ≤ head.nodes + (v.nodes + 0) + 1
    omega
  | seq _ _ _ hlen _ ih => exact Nat.succ_le_succ (nodesEach_le hlen ih)
  | @map gaps entries spelling node es _ _ hlen _ ih =>
    have hlen' : (Value.map node es).children.length = (entryForms entries).length := by
      rw [Value.length_children_map, length_entryForms, hlen]
    have hparts := nodesEach_le hlen' ih
    rw [← nodesEntries_eq, Value.nodesEach_children] at hparts
    exact Nat.succ_le_succ hparts

end Form

/-- **A program is clear if a value that its text is read as is equal to the value that it was written from**:
the two have as many nodes. -/
theorem Program.Describes.clear_of_equal {R : Registry} {w : World} {p p' : Program} {u v : Value} (hw : R.Ok w)
    (h : p.Describes v) (hknown : R.Known v) (hr : ofSource p.source = .ok p') (hu : p'.Represents u)
    (hknown' : R.Known u) (he : u.equal v) : p.Clear := by
  obtain ⟨hle, hclear⟩ := clear_of_nodes (h.writable hw hknown) hr
  have hequal := Value.nodes_eq_of_equal hw hknown' hknown he
  have hforms : p.nodes + 1 ≤ v.nodes := by
    cases h with
    | intro _ _ _ heach =>
      exact Nat.succ_le_succ (Form.nodesEach_le heach.1 fun i part v hpart hv =>
        (heach.2 i part v hpart hv).nodes_le)
  have hread : u.nodes = p'.nodes + 1 := by
    obtain ⟨id, us, hus, rfl⟩ := hu
    exact congrArg (· + 1) hus.nodes
  exact hclear (by omega)

end EditableLisp
