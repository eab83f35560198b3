import EditableLisp.Proofs.Expanding
import EditableLisp.Proofs.TailLoops

/-!
# Loops by way of a template

A function that calls itself by way of a template makes an instance of the template in each round, evaluates it and
adds it to the memo step, though the call of the template keeps its expansion (`memos_unbounded`).
-/

namespace EditableLisp

/-- The body of `f` is the call of a template. It was expanded: it stands for `(do x)`, where `x` is bound to a call
of `f`. -/
structure Detour (call : Call) (scope : Env) (w : World) : Prop extends Cycle call scope w where
  template : ∃ maker kept node first second frame again site,
    w.lookup? scope "go" = some maker ∧ maker.isExpander = true ∧ maker.identical kept = true ∧
    w.expansions.get? call.node.id =
      some (.bound kept (.seq .list node [.symbol first "do", .symbol second "x"]) frame) ∧
    node.style ≠ .program ∧ (w.frame frame.frame).get? "do" = none ∧
    (w.frame frame.frame).get? "x" = some ⟨Call.toValue again, site⟩ ∧ Repeats call.node.id w again

variable {call again c : Call} {scope env : Env} {frame : FrameId} {w w₁ w' : World}

theorem Detour.carried (h : Detour call scope w) (hw : World.Carries call.node.id w w') :
    Detour call scope w' where
  toCycle := h.toCycle.carried hw
  template := by
    obtain ⟨maker, kept, node, first, second, frame, again, site, hmaker, hexpander, hsame, hkept, hstyle, hdo, hx,
      hrepeats⟩ := h.template
    rw [hw.lookup?, hw.expansion]
    exact ⟨maker, kept, node, first, second, frame, again, site, hmaker, hexpander, hsame, hkept, hstyle,
      by rw [hw.frame]; exact hdo, by rw [hw.frame]; exact hx, hrepeats.mono hw.nextId⟩

/-- A symbol that has a value comes to it, and what a round relies on is as it was. -/
theorem Direct.eval_symbol (id : NodeId) {name : String} {v : Value} (h : w.lookup? env name = some v)
    (other : NodeId) : ∃ w', Direct.eval 1 (.symbol id name) env w = .ok v w' ∧ World.Carries other w w' := by
  obtain ⟨results, sites, recordings, -, hsymbol⟩ := @Direct.evalSymbol_of_lookup w id name env v h
  exact ⟨_, hsymbol, ⟨fun _ => rfl, rfl, Nat.le_refl _⟩⟩

/-- An instance of the template is a new list. -/
theorem instantiate_do {node : Node} {first second : NodeId} {frame : Env} {site : Option Value} {v : Value}
    (hdo : (w.frame frame.frame).get? "do" = none) (hx : (w.frame frame.frame).get? "x" = some ⟨v, site⟩) :
    instantiate (.seq .list node [.symbol first "do", .symbol second "x"]) frame w =
      (.seq .list ⟨w.nextId, node.style, w.gaps? node 2, none⟩ [.symbol first "do", v],
        { w with nextId := w.nextId + 1 }) := by
  have hfirst : substitute (w.frame frame.frame) (.symbol first "do") = pure (.symbol first "do") := by
    unfold substitute
    rw [hdo]
    rfl
  have hsecond : substitute (w.frame frame.frame) (.symbol second "x") = pure v := by
    unfold substitute
    rw [hx]
    rfl
  have hitems : substituteItems (w.frame frame.frame) #[] [.symbol first "do", .symbol second "x"] =
      pure [.symbol first "do", v] := by
    unfold substituteItems
    rw [hfirst, pure_bind]
    unfold substituteItems
    rw [hsecond, pure_bind]
    rfl
  unfold instantiate
  rw [Change.get_bind]
  unfold substitute
  rw [hitems]
  rfl

/-- **The call of the template is served with a new instance**, though its expansion is kept. -/
theorem Machine.servedForm?_bound {maker kept template : Value} {frame : Env}
    (hsame : maker.identical kept = true)
    (hkept : w.expansions.get? call.node.id = some (.bound kept template frame)) :
    servedForm? call maker w = (some (instantiate template frame w).1, (instantiate template frame w).2) := by
  have hserves : (Expansion.bound kept template frame).servesFor w maker = true := by
    simp [Expansion.servesFor, Expansion.maker?, Expansion.isCurrent, hsame]
  unfold servedForm?
  rw [Change.get_bind, hkept]
  dsimp only
  rw [if_pos hserves]
  rfl

/-- **A round of the loop**: a call of `f` comes, by the body of `f` and an instance of the template, to a call of
`f` again. The instance is a node that was made in the round. -/
theorem Detour.round (h : Detour call scope w) (hc : Repeats call.node.id w c) (hempty : w.frame frame = []) :
    ∃ (made again : Call) (frame' : FrameId) (w' : World),
      Tails [c.toValue, call.toValue, made.toValue] (scope.child frame) w c.toValue again.toValue
        (scope.child frame') w' ∧
      w'.frame frame' = [] ∧ Detour call scope w' ∧ Repeats call.node.id w' again ∧
      w.nextId ≤ made.node.id ∧ made.node.id < w'.nextId := by
  obtain ⟨fid, params, data, hfunction⟩ := h.function
  obtain ⟨symbol, hitems⟩ := hc.items
  have hcalled : c.IsCall (.symbol symbol "f") [] := ⟨hc.style, hitems, by rw [hitems]; rfl⟩
  -- The call of the function.
  have hf := (congrFun (World.lookup?_child_of_nil hempty scope) "f").trans hfunction
  obtain ⟨w₁, hhead, hw₁⟩ := Direct.eval_symbol symbol hf call.node.id
  have hw₂ := hw₁.trans (Machine.carries_markOrdinary hc.other w₁)
  generalize hmarked : (Machine.markOrdinary c w₁).2 = w₂ at hw₂
  let env : Env := scope.child w₂.frames.size
  let w₃ : World := { w₂ with frames := w₂.frames.push .empty, nextId := w₂.nextId + 1 }
  have hw₃ : World.Carries call.node.id w w₃ := hw₂.trans ⟨frame_newChild w₂ scope, rfl, Nat.le_succ _⟩
  have hempty₃ : w₃.frame w₂.frames.size = [] :=
    (frame_newChild w₂ scope _).trans (World.frame_of_size_le (Nat.le_refl _))
  have hargs : Direct.evalEach (Direct.parts 1) (scope.child frame) [] (Machine.markOrdinary c w₁).2 = .ok [] w₂ :=
    congrArg (EStateM.Result.ok []) hmarked
  have hfirst : Tail 1 (scope.child frame) w c.toValue call.toValue env w₃ :=
    .call hcalled hhead hargs (Machine.enter_nothing scope params w₂)
  -- The call of the template.
  have h₃ := h.carried hw₃
  obtain ⟨head, args, hcall⟩ := h₃.head
  obtain ⟨maker, kept, node, first, second, bound, again, site, hmaker, hexpander, hsame, hkept, hstyle, hdo, hx,
    hagain⟩ := h₃.template
  have hgo := (congrFun (World.lookup?_child_of_nil hempty₃ scope) "go").trans hmaker
  obtain ⟨w₄, hhead', hw₄⟩ := Direct.eval_symbol head hgo call.node.id
  let made : Call := ⟨⟨w₄.nextId, node.style, w₄.gaps? node 2, none⟩, [.symbol first "do", again.toValue]⟩
  let w₅ : World := { w₄ with nextId := w₄.nextId + 1 }
  have hw₅ : World.Carries call.node.id w₃ w₅ := hw₄.trans ⟨fun _ => rfl, rfl, Nat.le_succ _⟩
  have hinstance : instantiate (.seq .list node [.symbol first "do", .symbol second "x"]) bound w₄ =
      (made.toValue, w₅) :=
    instantiate_do (by rw [hw₄.frame]; exact hdo) (by rw [hw₄.frame]; exact hx)
  have hserved := Machine.servedForm?_bound hsame (hw₄.expansion.trans hkept)
  rw [hinstance] at hserved
  have hexpand : Direct.expand (Direct.parts 1) call maker w₄ = .ok made.toValue w₅ := by
    unfold Direct.expand
    rw [bind_of_eq_ok (lift_of_eq hserved)]
    rfl
  have hsecond : Tail 1 env w₃ call.toValue made.toValue env w₅ := .expansion hcall hhead' hexpander hexpand
  -- The instance of the template.
  have hbody : made.special? = some .body := if_neg hstyle
  have hlast : made.items = .symbol first "do" :: ([] ++ [again.toValue]) := rfl
  have hnone : Direct.evalEach (Direct.parts 1) env [] w₅ = .ok [] w₅ := rfl
  have hthird : Tail 1 env w₅ made.toValue again.toValue env w₅ := .body hbody hlast hnone
  exact ⟨made, again, _, w₅, .there hfirst (.there hsecond (.there hthird .here)),
    (hw₅.frame _).trans hempty₃, h₃.carried hw₅, hagain.mono hw₅.nextId, Nat.le_trans hw₃.nextId hw₄.nextId,
    Nat.lt_succ_self _⟩

/-- The identities of some nodes were given out. -/
def World.Gave (w : World) (nodes : List Value) : Prop :=
  ∀ node ∈ nodes, ∀ id, node.nodeId? = some id → id < w.nextId

/-- **The memo step of the loop has a node more after each round.** -/
theorem Detour.rounds (h : Detour call scope w) (hc : Repeats call.node.id w c) (hempty : w.frame frame = [])
    {nodes : List Value} (hnodes : w.Gave nodes) (n : Nat) :
    ∃ m control nodes' w', Machine.steps m ⟨.eval c.toValue (scope.child frame), [.memo nodes]⟩ w =
      .ok ⟨control, [.memo nodes']⟩ w' ∧ nodes.length + n ≤ nodes'.length := by
  induction n generalizing w c frame nodes with
  | zero => exact ⟨0, _, nodes, w, rfl, Nat.le_refl _⟩
  | succ n ih =>
    obtain ⟨made, again, id, w₁, htails, hempty₁, h₁, hagain, hfresh, hgiven⟩ := h.round hc hempty
    obtain ⟨k, hk⟩ := Machine.reaches_tails htails [.memo nodes]
    rw [Machine.pend_memo] at hk
    have hle : w.nextId ≤ w₁.nextId := Nat.le_trans hfresh (Nat.le_of_lt hgiven)
    have hgrows : nodes.length < (Machine.addNodes nodes [c.toValue, call.toValue, made.toValue]).length := by
      have hmade : made.toValue ∈ [c.toValue, call.toValue, made.toValue] := List.mem_of_getElem? (i := 2) rfl
      exact Machine.length_lt_addNodes hmade fun node hn he => Nat.not_lt.mpr hfresh (hnodes node hn _ he)
    have hnodes₁ : w₁.Gave (Machine.addNodes nodes [c.toValue, call.toValue, made.toValue]) := by
      intro node hn id hid
      rcases Machine.mem_of_mem_addNodes hn with hn | hn
      · exact Nat.lt_of_lt_of_le (hnodes node hn id hid) hle
      · simp only [List.mem_cons, List.not_mem_nil, or_false] at hn
        rcases hn with rfl | rfl | rfl
        · cases hid
          exact Nat.lt_of_lt_of_le hc.given hle
        · cases hid
          exact h₁.given
        · cases hid
          exact hgiven
    obtain ⟨m, control, nodes', w', hm, hlength⟩ := ih h₁ hagain hempty₁ hnodes₁
    refine ⟨k + m, control, nodes', w', ?_, by omega⟩
    rw [Machine.steps_add, bind_of_eq_ok hk]
    exact hm

/-- A state is at a call of `f` in a round of the loop, with a memo step of nodes whose identities were given out. -/
def State.isInRound (s : State) (w : World) : Bool :=
  match s.cycle? w, s.stack with
  | some (call, scope), [.memo nodes] =>
    match w.lookup? scope "go", w.expansions.get? call.node.id with
    | some maker, some (.bound kept (.seq .list list [.symbol _ "do", .symbol _ "x"]) frame) =>
      match (w.frame frame.frame).get? "x" with
      | some ⟨.seq .list again [.symbol _ "f"], _⟩ =>
        decide ((again.style ≠ .program ∧ again.id ≠ call.node.id ∧ again.id < w.nextId) ∧ list.style ≠ .program ∧
          maker.isExpander = true ∧ maker.identical kept = true ∧
          ((w.frame frame.frame).get? "do").isNone = true ∧
          nodes.all (fun n => n.nodeId?.all fun id => decide (id < w.nextId)) = true)
      | _ => false
    | _, _ => false
  | _, _ => false

theorem State.exists_detour {s : State} (h : s.isInRound w = true) :
    ∃ (call c : Call) (scope : Env) (frame : FrameId) (nodes : List Value),
      s = ⟨.eval c.toValue (scope.child frame), [.memo nodes]⟩ ∧ Detour call scope w ∧
      Repeats call.node.id w c ∧ w.frame frame = [] ∧ w.Gave nodes := by
  unfold isInRound at h
  split at h
  · rename_i call scope nodes hcycle hstack
    obtain ⟨c, id, hs, hcycle, hc, hempty⟩ := State.exists_cycle hcycle
    rw [hstack] at hs
    refine ⟨call, c, scope, id, nodes, hs, ?_⟩
    split at h
    · rename_i maker kept list first second frame hmaker hkept
      split at h
      · rename_i again aid site hx
        obtain ⟨hagain, hlist, hexpander, hsame, hdo, hnodes⟩ := of_decide_eq_true h
        refine ⟨⟨hcycle, maker, kept, list, first, second, frame, ⟨again, [.symbol aid "f"]⟩, site, hmaker, hexpander,
          hsame, hkept, hlist, Option.isNone_iff_eq_none.mp hdo, hx, ⟨aid, rfl⟩, hagain.1, hagain.2.1, hagain.2.2⟩, hc,
          hempty, fun n hn id hid => ?_⟩
        have hgave := List.all_eq_true.mp hnodes n hn
        rw [hid] at hgave
        exact of_decide_eq_true hgave
      · cases h
    · cases h
  · cases h

/-- The program binds a template and a function that calls itself by way of it, and calls the function. -/
def detour : String := "(defsyntax go [x] (do x)) (defn f [] (go (f))) (f)"

/-- A run of the program comes to a round of the loop. -/
def entersRound (w : World) : Bool :=
  match readProgram detour w with
  | (.ok p, w₁) =>
    match Machine.steps 12 ⟨.eval p .global, []⟩ w₁ with
    | .ok s w₂ => s.isInRound w₂
    | .error .. => false
  | _ => false

open Machine in
/-- **A loop in tail position may have a memo step without a bound.** -/
theorem memos_unbounded : ∃ p w, readProgram detour World.full = (.ok p, w) ∧
    ∀ bound, ∃ n state w' nodes, steps n ⟨.eval p .global, []⟩ w = .ok state w' ∧ .memo nodes ∈ state.stack ∧
      bound < nodes.length := by
  have test : entersRound World.full = true := by decide +kernel
  unfold entersRound at test
  split at test
  · rename_i p w₁ hread
    split at test
    · rename_i s w₂ hs
      obtain ⟨call, c, scope, frame, nodes, rfl, h, hc, hempty, hnodes⟩ := State.exists_detour test
      refine ⟨p, w₁, hread, fun bound => ?_⟩
      obtain ⟨m, control, nodes', w', hm, hlength⟩ := h.rounds hc hempty hnodes (bound + 1)
      refine ⟨12 + m, ⟨control, [.memo nodes']⟩, w', nodes', ?_, List.mem_singleton.mpr rfl, by omega⟩
      rw [steps_add, bind_of_eq_ok hs]
      exact hm
    · cases test
  · cases test

end EditableLisp
