import EditableLisp.Builtin.Argument
import EditableLisp.Builtin.Textual
import EditableLisp.Proofs.Printing

/-!
# Arguments keep the world ok

What built-in functions demand of their arguments: a demand registers nothing, and what it takes out of a
known argument is known.
-/

namespace EditableLisp

open Registry

variable {α : Type} {R : Registry} {Q : Registry → α → Prop} {f : Value → Act α}

namespace Argument

/-! ## Numbers of arguments -/

theorem keeps_wrongArity (name : String) (args : List Value) :
    Keeps R (wrongArity name args : Act α) Q := Keeps.fail _

theorem keeps_one {name : String} {args : List Value} (ha : R.AllKnown args)
    (hf : ∀ v, R.Known v → Keeps R (f v) Q) : Keeps R (one name f args) Q := by
  unfold one
  split
  · exact hf _ (ha _ List.mem_cons_self)
  · exact keeps_wrongArity _ _

theorem keeps_two {f : Value → Value → Act α} {name : String} {args : List Value} (ha : R.AllKnown args)
    (hf : ∀ v w, R.Known v → R.Known w → Keeps R (f v w) Q) : Keeps R (two name f args) Q := by
  unfold two
  split
  · exact hf _ _ (ha _ List.mem_cons_self) (ha _ (List.mem_cons_of_mem _ List.mem_cons_self))
  · exact keeps_wrongArity _ _

theorem keeps_twoOrThree {f : Value → Value → Option Value → Act α} {name : String} {args : List Value}
    (ha : R.AllKnown args) (hf : ∀ v w x, R.Known v → R.Known w → (∀ u, x = some u → R.Known u) →
      Keeps R (f v w x) Q) : Keeps R (twoOrThree name f args) Q := by
  unfold twoOrThree
  split
  · exact hf _ _ _ (ha _ List.mem_cons_self) (ha _ (List.mem_cons_of_mem _ List.mem_cons_self)) nofun
  · rename_i v w x
    refine hf _ _ _ (ha _ List.mem_cons_self) (ha _ (List.mem_cons_of_mem _ List.mem_cons_self)) ?_
    rintro u ⟨⟩
    exact ha _ (List.mem_cons_of_mem _ (List.mem_cons_of_mem _ List.mem_cons_self))
  · exact keeps_wrongArity _ _

theorem keeps_oneOrMore {f : Value → List Value → Act α} {name : String} {args : List Value}
    (ha : R.AllKnown args) (hf : ∀ v rest, R.Known v → R.AllKnown rest → Keeps R (f v rest) Q) :
    Keeps R (oneOrMore name f args) Q := by
  unfold oneOrMore
  split
  · exact hf _ _ (allKnown_cons.mp ha).1 (allKnown_cons.mp ha).2
  · exact keeps_wrongArity _ _

/-! ## Kinds of arguments -/

/-- A failure that shows a known value. -/
theorem steady_failWith {P : α → Prop} {v : Value} (hv : R.Known v) (fault : String → Fault) :
    Steady R (liftM (print v) >>= fun shown => fail (fault shown)) P :=
  Steady.bind (steady_print hv) fun _ _ => Steady.fail _

theorem steady_unmet {P : α → Prop} {v : Value} (hv : R.Known v) (demand : Demand) :
    Steady R (unmet demand v) P := steady_failWith hv _

theorem steady_number {v : Value} (hv : R.Known v) : Steady R (number v) fun _ => True := by
  unfold number
  split
  · exact Steady.pure trivial
  · exact steady_unmet hv _

theorem steady_number? {v : Option Value} (hv : ∀ u, v = some u → R.Known u) :
    Steady R (number? v) fun _ => True := by
  unfold number?
  split
  · exact Steady.bind (steady_number (hv _ rfl)) fun _ _ => Steady.pure trivial
  · exact Steady.pure trivial

theorem steady_string {v : Value} (hv : R.Known v) : Steady R (string v) fun _ => True := by
  unfold string
  split
  · exact Steady.pure trivial
  · exact steady_unmet hv _

theorem steady_cell {v : Value} (hv : R.Known v) : Steady R (cell v) fun _ => True := by
  unfold cell
  split
  · exact Steady.pure trivial
  · exact steady_unmet hv _

theorem steady_sequence {v : Value} (hv : R.Known v) : Steady R (sequence v) R.AllKnown := by
  refine Steady.of_ok fun w hw => ?_
  have hparts := hw.partsKnown hv
  unfold sequence
  split
  · exact Steady.pure hparts
  · exact steady_unmet hv _

theorem steady_mapping {v : Value} (hv : R.Known v) :
    Steady R (mapping v) fun entries => (Entries.names entries).Nodup ∧ R.EntriesKnown entries := by
  refine Steady.of_ok fun w hw => ?_
  have hparts := hw.partsKnown hv
  unfold mapping
  split
  · exact Steady.pure hparts
  · exact steady_unmet hv _

theorem steady_items {v : Value} (hv : R.Known v) : Steady R (items v) R.AllKnown := by
  refine Steady.of_ok fun w hw => ?_
  have hparts := hw.partsKnown hv
  unfold items
  split
  · exact Steady.pure allKnown_nil
  · exact Steady.pure hparts
  · exact steady_failWith hv _

theorem steady_nameFor {v : Value} (hv : R.Known v) (function : String) :
    Steady R (nameFor function v) fun _ => True := by
  unfold nameFor
  split
  · exact Steady.pure trivial
  · exact steady_failWith hv _

theorem knownKey_of_key? {v : Value} (hv : R.Known v) {k : Key} (h : v.key? = some k) : R.KnownKey k := by
  cases v with
  | keyword =>
    cases h
    exact hv
  | text =>
    cases h
    trivial
  | _ => cases h

theorem steady_key {v : Value} (hv : R.Known v) : Steady R (key v) R.KnownKey := by
  unfold key
  split
  · rename_i k hk
    exact Steady.pure (knownKey_of_key? hv hk)
  · exact steady_failWith hv _

/-- The entries made of known keys and values are known. -/
theorem steady_pairs {vs : List Value} (hv : R.AllKnown vs) (done : Array (Key × Value))
    (hd : R.EntriesKnown done.toList) : Steady R (pairs done vs) R.EntriesKnown := by
  match vs with
  | [] => exact Steady.pure hd
  | [_] => exact Steady.pure hd
  | k :: v :: rest =>
    obtain ⟨hk, hrest⟩ := allKnown_cons.mp hv
    obtain ⟨hv, hrest⟩ := allKnown_cons.mp hrest
    unfold pairs
    refine Steady.bind (steady_key hk) fun k hk => steady_pairs hrest _ ?_
    rw [Array.toList_push]
    exact List.forall_mem_append.mpr ⟨hd, List.forall_mem_singleton.mpr ⟨hk, hv⟩⟩

end Argument

/-! ## Texts of arguments -/

theorem steady_mapM {β γ : Type} {act : β → Change γ} {bs : List β}
    (h : ∀ b ∈ bs, Steady R (liftM (act b)) fun _ => True) :
    Steady R (liftM (bs.mapM act)) fun _ => True := by
  induction bs with
  | nil => exact Steady.pure trivial
  | cons b rest ih =>
    rw [List.mapM_cons, lift_bind]
    refine Steady.bind (h b List.mem_cons_self) fun _ _ => ?_
    rw [lift_bind]
    exact Steady.bind (ih fun c hc => h c (List.mem_cons_of_mem _ hc)) fun _ _ => Steady.pure trivial

theorem steady_printEach {vs : List Value} (hv : R.AllKnown vs) :
    Steady R (liftM (printEach vs)) fun _ => True :=
  steady_mapM fun v hm => (steady_print (hv v hm)).mono fun _ _ => trivial

theorem steady_printEachPlain {vs : List Value} (hv : R.AllKnown vs) :
    Steady R (liftM (printEachPlain vs)) fun _ => True :=
  steady_mapM fun v hm => (steady_printPlain (hv v hm)).mono fun _ _ => trivial

/-- An act inside a named function keeps what it keeps. -/
theorem Keeps.within {act : Act α} (h : Keeps R act Q) (name : String) :
    Keeps R (EditableLisp.within name act) Q := by
  intro w hw
  obtain ⟨R', hle, ha⟩ := h w hw
  refine ⟨R', hle, ?_⟩
  unfold EditableLisp.within
  cases e : act w with
  | ok a w' =>
    rw [e] at ha
    exact ha
  | error b w' =>
    rw [e] at ha
    exact ha

end EditableLisp
