import EditableLisp.Proofs.Lookups
import EditableLisp.Proofs.Moves

/-!
# What an expansion depends on

An expansion that is computed anew is kept with lookups. They are the first lookups of each name in each
frame, in order, of all that the machine looked up from the start of the expansion to its end, whatever it
did in between: other expansions may have been started and finished on the way, or reused. The same lookups
are credited to the expansion around it (`Machine.reads_of_expansion`).

`Machine.Underway` is what holds on the way: the recordings that were opened since belong to the expansions
that are pending since, and together they hold what was looked up, up to repetitions.
-/

namespace EditableLisp

open Lookup

namespace Machine

/-! ## Runs -/

/-- Steps that are taken while `pending` stays pending, with all that they look up, in order. -/
inductive Running (pending : List Pending) (s : State) (w : World) : List Lookup → State → World → Prop where
  | start : Running pending s w [] s w
  | step {seen : List Lookup} {s₁ s₂ : State} {w₁ w₂ : World} (run : Running pending s w seen s₁ w₁)
      (next : step s₁ w₁ = .ok s₂ w₂) (stays : pending <:+ s₂.stack) :
      Running pending s w (seen ++ s₁.seen w₁) s₂ w₂

/-- The call of an expander is expanded anew, up to the state and the world in which the expansion is
complete, with all that is looked up meanwhile. -/
inductive Completes (call : Call) (f : Value) (target : Option Env) (stack : List Pending) (w : World) :
    List Lookup → State → World → Prop where
  /-- A built-in function computes the expansion at once. -/
  | builtin {id : NodeId} {code : Builtin} {data : Value} {s : State} {w' : World}
      (maker : f = .builtin id code data) (starts : expandAnew call f target stack w = .ok s w') :
      Completes call f target stack w [] s w'
  /-- The body of a closure is run until the expansion is no longer pending. -/
  | closure {id : NodeId} {params body : Value} {env : Env} {data : Value} {seen : List Lookup}
      {s₀ s₁ s₂ : State} {w₀ w₁ w₂ : World} (maker : f = .closure id .procedure params body env data)
      (starts : expandAnew call f target stack w = .ok s₀ w₀) (runs : Running s₀.stack s₀ w₀ seen s₁ w₁)
      (ends : step s₁ w₁ = .ok s₂ w₂) (leaves : ¬ s₀.stack <:+ s₂.stack) :
      Completes call f target stack w (seen ++ s₁.seen w₁) s₂ w₂

/-! ## Recordings on the way -/

/-- One recording for each expansion, at the depth that the expansion knows, around `outer` others. -/
inductive Aligned (outer : Nat) : List (List Pending) → List (List Lookup) → Prop where
  | nil : Aligned outer [] []
  | cons {above : List (List Pending)} {opened : List (List Lookup)} (rest : Aligned outer above opened)
      (call : Call) (maker : Value) (target : Option Env) (below : List Pending) (top : List Lookup) :
      Aligned outer ((.expansion call maker (opened.length + outer) target :: below) :: above) (top :: opened)

/-- The recordings opened above `older` belong to the expansions pending above `base`, and hold what was
looked up since, up to repetitions. -/
def Underway (older : List (List Lookup)) (base : List (List Pending)) (seen : List Lookup)
    (pending : List (List Pending)) (recordings : List (List Lookup)) : Prop :=
  ∃ above opened, pending = above ++ base ∧ recordings = opened ++ older ∧
    Aligned older.length above opened ∧ firsts opened.flatten.reverse = firsts seen

namespace Underway

variable {older recordings : List (List Lookup)} {base pending : List (List Pending)} {seen : List Lookup}
  {call : Call} {maker : Value} {depth : Nat} {target : Option Env} {below : List Pending} {w : World}

/-- While an expansion is pending above the base, lookups go to a recording that was opened since. -/
theorem credit (h : Underway older base seen pending recordings) (hlt : base.length < pending.length)
    (more : List Lookup) : Underway older base (seen ++ more) pending (credited recordings more) := by
  obtain ⟨above, opened, rfl, rfl, ha, hs⟩ := h
  cases ha with
  | nil => exact absurd hlt (Nat.lt_irrefl _)
  | @cons above opened ha call maker target below top =>
    refine ⟨_, (more.reverse ++ top) :: opened, rfl, rfl, .cons ha .., ?_⟩
    have hflat : ((more.reverse ++ top) :: opened).flatten.reverse = (top :: opened).flatten.reverse ++ more := by
      simp only [List.flatten_cons, List.reverse_append, List.reverse_reverse, List.append_assoc]
    rw [hflat]
    exact firsts_append_congr hs rfl

theorem opens (h : Underway older base seen pending recordings) (call : Call) (maker : Value)
    (target : Option Env) (below : List Pending) :
    Underway older base seen ((.expansion call maker recordings.length target :: below) :: pending)
      ([] :: recordings) := by
  obtain ⟨above, opened, rfl, rfl, ha, hs⟩ := h
  rw [List.length_append]
  exact ⟨_, [] :: opened, rfl, rfl, .cons ha .., hs⟩

/-- An expansion that is finished hands its first lookups to the one around it. -/
theorem closes (h : Underway older base seen ((.expansion call maker depth target :: below) :: pending)
    w.recordings) (hlt : base.length < pending.length) :
    Underway older base seen pending (finishRecording depth w).2.recordings := by
  obtain ⟨above, opened, hp, hr, ha, hs⟩ := h
  cases ha with
  | nil =>
    have hlength : pending.length + 1 = base.length := congrArg List.length hp
    omega
  | @cons above opened ha call maker target below top =>
    obtain ⟨he, rfl⟩ := List.cons.inj hp
    cases he
    cases ha with
    | nil => exact absurd hlt (Nat.lt_irrefl _)
    | @cons above opened ha call' maker' target' below' next =>
      have hdepth : (next :: opened).length + older.length = (next :: (opened ++ older)).length := by
        rw [List.length_cons, List.length_cons, List.length_append, Nat.add_right_comm]
      have habandon : (w.abandon ((next :: (opened ++ older)).length + 1)).recordings =
          top :: next :: (opened ++ older) := World.recordings_abandon hr
      rw [hdepth, finishRecording_of_abandon habandon (Nat.le_refl _)]
      refine ⟨_, ((firstLookups top.reverse).reverse ++ next) :: opened, rfl, rfl, .cons ha .., ?_⟩
      rw [← hs, firstLookups_eq_firsts]
      simp only [List.flatten_cons, List.reverse_append, List.reverse_reverse, List.append_assoc]
      exact firsts_append_congr rfl (firsts_append_congr rfl (firsts_firsts _))

/-- The outermost expansion that was started since is finished with all first lookups. -/
theorem finish (h : Underway older base seen ((.expansion call maker depth target :: below) :: base)
    w.recordings) :
    finishRecording depth w = (firsts seen, { w with recordings := credited older (firsts seen) }) := by
  obtain ⟨above, opened, hp, hr, ha, hs⟩ := h
  cases ha with
  | nil =>
    have hlength : base.length + 1 = base.length := congrArg List.length hp
    omega
  | @cons above opened ha call maker target below top =>
    obtain ⟨he, hb⟩ := List.cons.inj hp
    cases he
    obtain rfl : above = [] := List.append_left_eq_self.mp hb.symm
    cases ha
    rw [List.flatten_singleton] at hs
    have habandon : (w.abandon (older.length + 1)).recordings = top :: older := World.recordings_abandon hr
    rw [List.length_nil, Nat.zero_add, finishRecording_of_abandon habandon (Nat.le_refl _),
      firstLookups_eq_firsts, hs]
    rfl

end Underway

/-! ## Runs keep the recordings underway -/

theorem expansionsOf_suffix {stack stack' : List Pending} (h : stack <:+ stack') :
    expansionsOf stack <:+ expansionsOf stack' := by
  obtain ⟨above, rfl⟩ := h
  induction above with
  | nil => exact List.suffix_rfl
  | cons p above ih =>
    cases p with
    | expansion call maker depth target => exact ih.trans (List.suffix_cons _ _)
    | _ => exact ih

theorem suffix_of_mem_expansionsOf {stack stack' : List Pending} (h : stack ∈ expansionsOf stack') :
    stack <:+ stack' := by
  induction stack' with
  | nil => cases h
  | cons p stack' ih =>
    cases p with
    | expansion call maker depth target =>
      rcases List.mem_cons.mp h with rfl | h
      · exact List.suffix_rfl
      · exact (ih h).trans (List.suffix_cons _ _)
    | _ => exact (ih h).trans (List.suffix_cons _ _)

theorem mem_expansionsOf {call : Call} {maker : Value} {depth : Nat} {target : Option Env}
    {below stack : List Pending} (h : .expansion call maker depth target :: below <:+ stack) :
    .expansion call maker depth target :: below ∈ expansionsOf stack :=
  (expansionsOf_suffix h).mem List.mem_cons_self

/-- An expansion is pending above what is pending below it. -/
theorem length_expansionsOf_lt {call : Call} {maker : Value} {depth : Nat} {target : Option Env}
    {below stack : List Pending} (h : .expansion call maker depth target :: below <:+ stack) :
    (expansionsOf below).length < (expansionsOf stack).length :=
  (expansionsOf_suffix h).length_le

section run

variable {older : List (List Lookup)} {call : Call} {f : Value} {depth : Nat} {target : Option Env}
  {stack : List Pending} {seen : List Lookup} {s s' : State} {w w' : World}

/-- No value has landed while an expansion is pending. -/
theorem Moves.ne_landed {recordings : List (List Lookup)} {outer : List Pending}
    (hm : Moves outer recordings s w) (stays : .expansion call f depth target :: stack <:+ s.stack) (v : Value) :
    s.control ≠ .landed v := by
  intro hv
  cases hm with
  | keeps hpends _ =>
    rw [hpends.landed v hv] at stays
    exact absurd (List.suffix_nil.mp stays) (List.cons_ne_nil _ _)
  | opens _ hstate _ =>
    subst hstate
    cases hv
  | @closes _ _ _ target' _ _ _ _ hstate _ _ =>
    subst hstate
    cases target' <;> cases hv

/-- **A step after which the expansion is still pending** keeps the recordings underway. -/
theorem Moves.underway (hm : Moves s.stack (credited w.recordings (s.seen w)) s' w')
    (h : Underway older (expansionsOf stack) seen (expansionsOf s.stack) w.recordings)
    (stays : .expansion call f depth target :: stack <:+ s.stack)
    (stays' : .expansion call f depth target :: stack <:+ s'.stack) :
    Underway older (expansionsOf stack) (seen ++ s.seen w) (expansionsOf s'.stack) w'.recordings := by
  have hc := h.credit (length_expansionsOf_lt stays) (s.seen w)
  cases hm with
  | keeps hpends hr =>
    rw [hpends.expansions, hr]
    exact hc
  | opens hbelow hstate hr =>
    subst hstate
    rw [hr, expansionsOf, hbelow]
    exact hc.opens ..
  | @closes call' maker depth' target' below v w₁ hstack hstate hr hw =>
    subst hstate hw
    have hbelow : expansionsOf (finishExpansion v target' below).stack = expansionsOf below :=
      (pends_finishExpansion v target').expansions
    have hlt := length_expansionsOf_lt stays'
    rw [hstack, ← hr] at hc
    rw [hbelow] at hlt ⊢
    exact hc.closes hlt

/-- What holds in a run while an expansion stays pending. -/
structure Midway (older : List (List Lookup)) (call : Call) (f : Value) (depth : Nat) (target : Option Env)
    (stack : List Pending) (seen : List Lookup) (s : State) (w : World) : Prop where
  stays : .expansion call f depth target :: stack <:+ s.stack
  busy : ∀ v, s.control ≠ .landed v
  underway : Underway older (expansionsOf stack) seen (expansionsOf s.stack) w.recordings

theorem Running.midway (h : Running (.expansion call f depth target :: stack) s w seen s' w')
    (hs : Midway older call f depth target stack [] s w) : Midway older call f depth target stack seen s' w' := by
  induction h with
  | start => exact hs
  | step _ next stays' ih =>
    have hm := moves_step ih.busy
    rename_i w₁ w₂ _
    specialize hm w₁
    rw [next] at hm
    exact ⟨stays', hm.ne_landed stays', hm.underway ih.underway ih.stays stays'⟩

/-- The step after which the expansion is no longer pending finishes it. -/
theorem Moves.finish (hm : Moves s.stack (credited w.recordings (s.seen w)) s' w')
    (h : Midway older call f depth target stack seen s w)
    (leaves : ¬ .expansion call f depth target :: stack <:+ s'.stack) :
    ∃ form, s' = finishExpansion form target stack ∧
      w'.expansions.get? call.node.id = some (.constant f form (firsts (seen ++ s.seen w))) ∧
      w'.recordings = credited older (firsts (seen ++ s.seen w)) := by
  have hmem := mem_expansionsOf h.stays
  have hc := h.underway.credit (length_expansionsOf_lt h.stays) (s.seen w)
  cases hm with
  | keeps hpends _ =>
    rw [← hpends.expansions] at hmem
    exact absurd (suffix_of_mem_expansionsOf hmem) leaves
  | opens hbelow hstate _ =>
    subst hstate
    rw [← hbelow] at hmem
    exact absurd ((suffix_of_mem_expansionsOf hmem).trans (List.suffix_cons _ _)) leaves
  | @closes call' maker depth' target' below form w₁ hstack hstate hr hw =>
    subst hstate hw
    rw [hstack] at hmem
    rcases List.mem_cons.mp hmem with he | hinner
    · cases he
      rw [hstack, ← hr] at hc
      rw [hc.finish]
      exact ⟨form, rfl, (Table.get?_set _ _ _ _).trans (if_pos rfl), rfl⟩
    · rw [← (pends_finishExpansion form target').expansions] at hinner
      exact absurd (suffix_of_mem_expansionsOf hinner) leaves

end run

/-- Expanding a call of a closure anew starts a recording and runs the body above the expansion. -/
theorem expandAnew_procedure {call : Call} {f : Value} {target : Option Env} {stack : List Pending}
    {id : NodeId} {params body : Value} {env : Env} {data : Value} {s : State} {w w' : World}
    (hf : f = .closure id .procedure params body env data)
    (h : expandAnew call f target stack w = .ok s w') :
    ∃ frame, s = ⟨.eval body frame, .expansion call f w.recordings.length target :: stack⟩ ∧
      w'.recordings = [] :: w.recordings := by
  subst hf
  obtain ⟨frame, w₁, henter, hrest⟩ := bind_eq_ok h
  have hsilent := silent_enter env params call.items.tail w
  rw [worldAfter_of_ok henter] at hsilent
  cases hrest
  exact ⟨frame, by rw [← hsilent], congrArg _ hsilent⟩

/-- **An expansion that completes is kept with what it depends on**, in any state and any world: its lookups
are the first lookups of each name in each frame, in order, of all that was looked up from its start to its
end. For each name in each frame that is exactly one, the first. The same lookups are credited to the
expansion around it, and no other recording changes. -/
theorem reads_of_expansion {call : Call} {f : Value} {target : Option Env} {stack : List Pending}
    {seen : List Lookup} {s : State} {w w' : World} (h : Completes call f target stack w seen s w') :
    ∃ form reads, s = finishExpansion form target stack ∧
      w'.expansions.get? call.node.id = some (.constant f form reads) ∧
      reads = firsts seen ∧
      (∀ l : Lookup, reads.filter (l.SamePlace ·) = (seen.find? (l.SamePlace ·)).toList) ∧
      w'.recordings = credited w.recordings reads := by
  cases h with
  | @builtin id code data _ _ hf starts =>
    subst hf
    obtain ⟨⟨form, reads⟩, w₁, heval, hrest⟩ := bind_eq_ok starts
    have hquiet := (Builtin.quiet_evaluate code call.items.tail).recorded.silent w
    rw [worldAfter_of_ok heval] at hquiet
    obtain ⟨rfl, -⟩ := recorded_eq_ok (Builtin.quiet_evaluate code call.items.tail) heval
    cases hrest
    refine ⟨form, [], rfl, (Table.get?_set _ _ _ _).trans (if_pos rfl), rfl, fun l => rfl, ?_⟩
    rw [credited_nil]
    exact hquiet
  | @closure _ _ body _ _ seen s₀ s₁ s₂ w₀ w₁ w₂ hf starts runs ends leaves =>
    obtain ⟨frame, rfl, hr⟩ := expandAnew_procedure hf starts
    have hstart : Midway w.recordings call f w.recordings.length target stack []
        ⟨.eval body frame, .expansion call f w.recordings.length target :: stack⟩ w₀ := by
      refine ⟨List.suffix_rfl, nofun, ?_⟩
      have hbase : Underway w.recordings (expansionsOf stack) [] (expansionsOf stack) w.recordings :=
        ⟨[], [], rfl, rfl, .nil, rfl⟩
      rw [hr]
      exact hbase.opens ..
    have hmid := runs.midway hstart
    have hm := moves_step hmid.busy w₁
    rw [ends] at hm
    obtain ⟨form, hs, hkept, hrecordings⟩ := hm.finish hmid leaves
    exact ⟨form, _, hs, hkept, rfl, fun l => filter_firsts l _, hrecordings⟩

/-- The body `(if x x)` looks `x` up twice; the expansion is kept with one lookup, which the expansion around
it gets too. -/
theorem reads_of_expansion_twice : ∃ call f seen s w w',
    Completes call f none [] w seen s w' ∧ w.recordings = [[]] ∧ seen.map Lookup.name = ["x", "x"] ∧
    ∃ form reads, w'.expansions.get? call.node.id = some (.constant f form reads) ∧
      reads.map Lookup.name = ["x"] ∧ w'.recordings = [reads] := by
  let w : World := { World.initial with frames := #[Tables.empty.define "x" (.bool true)], recordings := [[]] }
  let x : Value := .symbol 0 "x"
  let body : Value := .seq .list (.bare 1) [.symbol 2 "if", x, x]
  let f : Value := .closure 3 .procedure (.seq .vector (.bare 4) []) body .global .nil
  let call : Call := ⟨.bare 5, [.symbol 6 "m"]⟩
  have run : ∃ seen s w', Completes call f none [] w seen s w' ∧ seen.map Lookup.name = ["x", "x"] ∧
      ∃ l, firsts seen = [l] ∧ l.name = "x" :=
    ⟨_, _, _, .closure rfl rfl (.step (.step (.step .start rfl ⟨[_, _], rfl⟩) rfl ⟨[_], rfl⟩) rfl ⟨[], rfl⟩) rfl
      (fun h => nomatch h.length_le), rfl, _, rfl, rfl⟩
  obtain ⟨seen, s, w', hrun, hseen, l, hfirsts, hname⟩ := run
  obtain ⟨form, reads, -, hkept, hreads, -, hcredited⟩ := reads_of_expansion hrun
  obtain rfl : reads = [l] := hreads.trans hfirsts
  exact ⟨call, f, seen, s, w, w', hrun, rfl, hseen, form, _, hkept, congrArg (fun n => [n]) hname, hcredited⟩

end Machine

end EditableLisp
