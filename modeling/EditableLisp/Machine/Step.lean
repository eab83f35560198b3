import EditableLisp.Machine.Special

/-!
# Steps of the evaluator

`step` takes the machine from one state to the next. Lists are calls or special forms (`bounce_list`), symbols are
looked up (`bounce_symbol`), vectors and maps evaluate their elements from left to right (`eval_vector`, `eval_map`),
and every other value is its own value (`bounce`). Templates are copied by `quasiquote_bounce`. The value of a node is
kept when the machine comes back from it. `drive` takes steps until a value has
landed, at most as many as it is given; an answer that it reaches does not change with more (`drive_add`).
-/

namespace EditableLisp.Machine

/-! ## Collections -/

/-- Evaluates the rest of a vector. -/
def evalVector (total : Nat) (rest : List Value) (done : Array Value) (env : Env)
    (stack : List Pending) : Change State := do
  match rest with
  | form :: rest => return ⟨.eval form env, .vector total rest done env :: stack⟩
  | [] => return ⟨.ret (← newVector done.toList), stack⟩

/-- Evaluates the rest of a map. -/
def evalMap (total : Nat) (rest : Entries) (done : Array (Key × Value)) (env : Env)
    (stack : List Pending) : Change State := do
  match rest with
  | (key, form) :: rest => return ⟨.eval form env, .map total key rest done env :: stack⟩
  | [] => return ⟨.ret (← newMap (Entries.ofPairs done.toList)), stack⟩

/-! ## Values -/

/-- Keeps a value as the last one of some nodes. -/
def keepResults (v : Value) : List Value → Change Unit
  | [] => return ()
  | node :: rest => do
    setResult node v
    keepResults v rest

/-- Goes on with what is pending when a value arrives. -/
def resume (v : Value) (stack : List Pending) : Act State :=
  match stack with
  | [] => return ⟨.landed v, []⟩
  | .body total rest env :: stack => return evalBody total rest env stack
  | .head call env :: stack => begin v call env stack
  | .args f call rest done env :: stack => evalArgs f call rest (done.push v) env stack
  | .branch yes no env :: stack =>
    match v.isTruthy, no with
    | true, _ => return ⟨.eval yes env, stack⟩
    | false, some no => return ⟨.eval no env, stack⟩
    | false, none => return ⟨.ret .nil, stack⟩
  | .definition name call env :: stack => do
    defineAt env name v call.toValue
    return ⟨.ret v, stack⟩
  | .binding index pattern rest call env :: stack => do
    Pattern.destructure env pattern v
    return evalBindings (index + 2) rest call env stack
  | .quasi shape total rest done splice env :: stack => do
    quasiItems shape total rest (← addQuasi splice done v) env stack
  | .expansion call maker depth target :: stack => do
    let reads ← finishRecording depth
    setExpansion call.node.id (.constant maker v reads)
    return finishExpansion v target stack
  | .evaluate env :: stack => return ⟨.eval v env.root, stack⟩
  | .conjunction total rest env :: stack =>
    if v.isTruthy then return evalConjunction total rest env stack else return ⟨.ret v, stack⟩
  | .disjunction total rest env :: stack =>
    if v.isTruthy then return ⟨.ret v, stack⟩ else return evalDisjunction total rest env stack
  | .vector total rest done env :: stack => evalVector total rest (done.push v) env stack
  | .map total key rest done env :: stack => evalMap total rest (done.push (key, v)) env stack
  | .memo nodes :: stack => do
    keepResults v nodes
    return ⟨.ret v, stack⟩
  | .job job :: stack => do return afterOutcome (← job.resume v) stack

/-! ## Forms -/

/-- Evaluates a symbol: looks it up, and keeps what was found on the symbol. -/
def evalSymbol (id : NodeId) (name : String) (env : Env) (stack : List Pending) : Act State := do
  let v ← lookup env name
  record env name v
  setResult (.symbol id name) v
  match (← get).site? env name with
  | some site => setSite id site
  | none => pure ()
  resume v stack

/-- Evaluates a list. -/
def evalList (node : Node) (items : List Value) (env : Env) (stack : List Pending) : Act State :=
  let call : Call := ⟨node, items⟩
  if node.style = .program then return evalBody items.length items env (memo call.toValue stack)
  else
    match items with
    | [] => resume call.toValue stack
    | head :: _ =>
      let stack := memo call.toValue stack
      match (Value.headName? items).bind Special.ofName? with
      | some special => evalSpecial special call env stack
      | none => return ⟨.eval head env, .head call env :: stack⟩

/-- Evaluates a form. -/
def eval (form : Value) (env : Env) (stack : List Pending) : Act State :=
  match form with
  | .seq .list node items => evalList node items env stack
  | .symbol id name => evalSymbol id name env stack
  | .seq .vector node items =>
    if items.isEmpty then resume form stack
    else evalVector items.length items #[] env (memo (.seq .vector node items) stack)
  | .map node entries =>
    if entries.isEmpty then resume form stack
    else evalMap entries.length entries #[] env (memo (.map node entries) stack)
  | form => resume form stack

/-- Copies a form of a template: evaluates what is headed by `unquote`, copies the elements of a sequence
that is not empty, and takes everything else as it is. -/
def quasi (form : Value) (env : Env) (stack : List Pending) : Act State :=
  match form with
  | .seq shape _ items =>
    if shape = .list ∧ Value.headName? items = some "unquote" then
      match items with
      | [_, form] => return ⟨.eval form env, stack⟩
      | _ => fail (.oneForm "unquote")
    else if items.isEmpty then resume form stack
    else quasiItems shape items.length items #[] env stack
  | form => resume form stack

/-! ## Steps -/

/-- Takes one step. A value that has landed stays. -/
def step (s : State) : Act State :=
  match s.control with
  | .eval form env => eval form env s.stack
  | .quasi form env => quasi form env s.stack
  | .ret v => resume v s.stack
  | .call f args => apply f args s.stack
  | .landed _ => return s

/-- Takes steps until a value has landed. -/
def drive : Nat → State → Act Value
  | 0, _ => throw .exhausted
  | fuel + 1, s =>
    match s.control with
    | .landed v => return v
    | _ => do drive fuel (← step s)

/-! ## Runs -/

/-- A value that has landed is the answer, whatever the number of steps. -/
theorem drive_landed (fuel : Nat) (v : Value) (stack : List Pending) :
    drive (fuel + 1) ⟨.landed v, stack⟩ = pure v := rfl

/-- A machine that has not landed takes a step and goes on. -/
theorem drive_step (fuel : Nat) {s : State} (h : ∀ v, s.control ≠ .landed v) :
    drive (fuel + 1) s = step s >>= drive fuel := by
  rw [drive]
  split
  · rename_i v hv
    exact absurd hv (h v)
  · rfl

/-- An answer that was reached within some steps is reached within more. -/
theorem drive_add {fuel : Nat} (more : Nat) {s : State} {w : World}
    {r : EStateM.Result Halt World Value} (h : drive fuel s w = r)
    (hr : ∀ w', r ≠ .error .exhausted w') : drive (fuel + more) s w = r := by
  induction fuel generalizing s w with
  | zero => exact absurd h.symm (hr w)
  | succ fuel ih =>
    rw [Nat.add_right_comm]
    by_cases hl : ∃ v, s.control = .landed v
    · obtain ⟨v, hv⟩ := hl
      obtain ⟨control, stack⟩ := s
      cases hv
      rw [drive_landed] at h ⊢
      exact h
    · have hn : ∀ v, s.control ≠ .landed v := fun v hv => hl ⟨v, hv⟩
      rw [drive_step _ hn] at h ⊢
      simp only [bind, EStateM.bind] at h ⊢
      split
      · rename_i a w' hs
        rw [hs] at h
        exact ih h
      · rename_i e w' hs
        rw [hs] at h
        exact h
end EditableLisp.Machine
