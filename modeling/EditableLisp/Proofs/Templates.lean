import EditableLisp.Machine.Call
import EditableLisp.Proofs.Copying

/-!
# Templates

`Value.Instance frame template form`: the form is the template with every symbol that the frame binds
replaced by its value, in new nodes. Values are put in as they are, and keys are left alone. `Value.Alike`
compares two values up to the identity and the layout of their nodes. Two instances of one template are
alike if their frames are (`alike_of_instance`), and so are two frames that bind one pattern to alike
values (`alike_of_binds`).

A template is instantiated in a frame of its own, which is settled once the parameters are bound
(`keeps_enter_template`); what comes out is an instance in what the frame is settled to
(`keeps_instantiate`).
-/

namespace EditableLisp

open Registry

/-! ## Values up to identity -/

namespace Value

mutual

/-- Two values have the same structure: nodes of the same kind and style at every place, and the same
leaves. -/
def Alike : Value → Value → Prop
  | symbol _ name, v => ∃ id, v = symbol id name
  | seq shape node items, v => ∃ node' vs, node'.style = node.style ∧ AlikeEach items vs ∧
    v = seq shape node' vs
  | map node entries, v => ∃ node' es, node'.style = node.style ∧ AlikeEntries entries es ∧
    v = map node' es
  | u, v => v = u

/-- `Alike` for elements. -/
def AlikeEach : List Value → List Value → Prop
  | [], vs => vs = []
  | u :: rest, vs => ∃ x xs, Alike u x ∧ AlikeEach rest xs ∧ vs = x :: xs

/-- `Alike` for entries, in the same order under the same keys. -/
def AlikeEntries : List (Key × Value) → List (Key × Value) → Prop
  | [], es => es = []
  | (k, u) :: rest, es => ∃ x xs, Alike u x ∧ AlikeEntries rest xs ∧ es = (k, x) :: xs

end

mutual

theorem Alike.refl (v : Value) : Alike v v := by
  match v with
  | nil | bool _ | num _ | text _ | keyword _ | builtin _ _ _ | closure _ _ _ _ _ _ | atom _ =>
    unfold Alike
    rfl
  | symbol id name =>
    unfold Alike
    exact ⟨id, rfl⟩
  | seq shape node items =>
    unfold Alike
    exact ⟨node, items, rfl, AlikeEach.refl items, rfl⟩
  | map node entries =>
    unfold Alike
    exact ⟨node, entries, rfl, AlikeEntries.refl entries, rfl⟩

theorem AlikeEach.refl (vs : List Value) : AlikeEach vs vs := by
  match vs with
  | [] =>
    unfold AlikeEach
    rfl
  | v :: rest =>
    unfold AlikeEach
    exact ⟨v, rest, Alike.refl v, AlikeEach.refl rest, rfl⟩

theorem AlikeEntries.refl (es : List (Key × Value)) : AlikeEntries es es := by
  match es with
  | [] =>
    unfold AlikeEntries
    rfl
  | (k, v) :: rest =>
    unfold AlikeEntries
    exact ⟨v, rest, Alike.refl v, AlikeEntries.refl rest, rfl⟩

end

theorem alike_vector_iff {shape : Shape} {i j : NodeId} {us vs : List Value} :
    Alike (seq shape (.bare i) us) (seq shape (.bare j) vs) ↔ AlikeEach us vs := by
  constructor
  · intro h
    unfold Alike at h
    obtain ⟨_, _, -, h, he⟩ := h
    cases he
    exact h
  · intro h
    unfold Alike
    exact ⟨.bare j, vs, rfl, h, rfl⟩

theorem alike_map_iff {i j : NodeId} {es fs : List (Key × Value)} :
    Alike (map (.bare i) es) (map (.bare j) fs) ↔ AlikeEntries es fs := by
  constructor
  · intro h
    unfold Alike at h
    obtain ⟨_, _, -, h, he⟩ := h
    cases he
    exact h
  · intro h
    unfold Alike
    exact ⟨.bare j, fs, rfl, h, rfl⟩

theorem alikeEach_cons_iff {u v : Value} {us vs : List Value} :
    AlikeEach (u :: us) (v :: vs) ↔ Alike u v ∧ AlikeEach us vs := by
  constructor
  · intro h
    unfold AlikeEach at h
    obtain ⟨_, _, hu, hus, he⟩ := h
    cases he
    exact ⟨hu, hus⟩
  · intro h
    unfold AlikeEach
    exact ⟨v, vs, h.1, h.2, rfl⟩

theorem alikeEntries_cons_iff {k : Key} {u v : Value} {es fs : List (Key × Value)} :
    AlikeEntries ((k, u) :: es) ((k, v) :: fs) ↔ Alike u v ∧ AlikeEntries es fs := by
  constructor
  · intro h
    unfold AlikeEntries at h
    obtain ⟨_, _, hu, hes, he⟩ := h
    cases he
    exact ⟨hu, hes⟩
  · intro h
    unfold AlikeEntries
    exact ⟨v, fs, h.1, h.2, rfl⟩

mutual

/-- Two values that one value is alike to are alike. -/
theorem Alike.right_unique (v : Value) {a b : Value} (ha : v.Alike a) (hb : v.Alike b) : a.Alike b := by
  match v with
  | nil | bool _ | num _ | text _ | keyword _ | builtin _ _ _ | closure _ _ _ _ _ _ | atom _ =>
    unfold Alike at ha hb
    rw [ha, hb]
    exact Alike.refl _
  | symbol id name =>
    unfold Alike at ha hb
    obtain ⟨i, rfl⟩ := ha
    obtain ⟨j, rfl⟩ := hb
    unfold Alike
    exact ⟨j, rfl⟩
  | seq shape node items =>
    unfold Alike at ha hb
    obtain ⟨node₁, vs, hs, hvs, rfl⟩ := ha
    obtain ⟨node₂, ws, hs', hws, rfl⟩ := hb
    unfold Alike
    exact ⟨node₂, ws, hs'.trans hs.symm, AlikeEach.right_unique items hvs hws, rfl⟩
  | map node entries =>
    unfold Alike at ha hb
    obtain ⟨node₁, es, hs, hes, rfl⟩ := ha
    obtain ⟨node₂, fs, hs', hfs, rfl⟩ := hb
    unfold Alike
    exact ⟨node₂, fs, hs'.trans hs.symm, AlikeEntries.right_unique entries hes hfs, rfl⟩

theorem AlikeEach.right_unique (items : List Value) {vs ws : List Value} (hv : AlikeEach items vs)
    (hw : AlikeEach items ws) : AlikeEach vs ws := by
  match items with
  | [] =>
    unfold AlikeEach at hv hw
    rw [hv, hw]
    exact AlikeEach.refl []
  | item :: rest =>
    unfold AlikeEach at hv hw
    obtain ⟨x, xs, hx, hxs, rfl⟩ := hv
    obtain ⟨y, ys, hy, hys, rfl⟩ := hw
    exact alikeEach_cons_iff.mpr ⟨Alike.right_unique item hx hy, AlikeEach.right_unique rest hxs hys⟩

theorem AlikeEntries.right_unique (entries : List (Key × Value)) {es fs : List (Key × Value)}
    (he : AlikeEntries entries es) (hf : AlikeEntries entries fs) : AlikeEntries es fs := by
  match entries with
  | [] =>
    unfold AlikeEntries at he hf
    rw [he, hf]
    exact AlikeEntries.refl []
  | (k, item) :: rest =>
    unfold AlikeEntries at he hf
    obtain ⟨x, xs, hx, hxs, rfl⟩ := he
    obtain ⟨y, ys, hy, hys, rfl⟩ := hf
    exact alikeEntries_cons_iff.mpr ⟨Alike.right_unique item hx hy, AlikeEntries.right_unique rest hxs hys⟩

end

/-! ## Instances -/

mutual

/-- A form is a template with every symbol that a frame binds replaced by its value. -/
def Instance (frame : Frame) : Value → Value → Prop
  | symbol id name, v => v = ((frame.get? name).map Binding.value).getD (symbol id name)
  | seq shape node items, v => ∃ node' vs, node'.style = node.style ∧ InstanceEach frame items vs ∧
    v = seq shape node' vs
  | map node entries, v => ∃ node' es, node'.style = node.style ∧ InstanceEntries frame entries es ∧
    v = map node' es
  | u, v => v = u

/-- `Instance` for elements. -/
def InstanceEach (frame : Frame) : List Value → List Value → Prop
  | [], vs => vs = []
  | u :: rest, vs => ∃ x xs, Instance frame u x ∧ InstanceEach frame rest xs ∧ vs = x :: xs

/-- `Instance` for entries, whose keys are left alone. -/
def InstanceEntries (frame : Frame) : List (Key × Value) → List (Key × Value) → Prop
  | [], es => es = []
  | (k, u) :: rest, es => ∃ x xs, Instance frame u x ∧ InstanceEntries frame rest xs ∧ es = (k, x) :: xs

end

theorem InstanceEntries.names {frame : Frame} {entries es : Entries}
    (h : InstanceEntries frame entries es) : Entries.names es = Entries.names entries := by
  induction entries generalizing es with
  | nil =>
    unfold InstanceEntries at h
    rw [h]
  | cons e rest ih =>
    obtain ⟨k, u⟩ := e
    unfold InstanceEntries at h
    obtain ⟨x, xs, -, hxs, rfl⟩ := h
    show k.name :: Entries.names xs = k.name :: Entries.names rest
    rw [ih hxs]

theorem InstanceEntries.length {frame : Frame} {entries es : Entries} (h : InstanceEntries frame entries es) :
    es.length = entries.length := by
  have := congrArg List.length h.names
  rwa [Entries.names, Entries.names, List.length_map, List.length_map] at this

theorem InstanceEach.length {frame : Frame} {items vs : List Value} (h : InstanceEach frame items vs) :
    vs.length = items.length := by
  induction items generalizing vs with
  | nil =>
    unfold InstanceEach at h
    rw [h]
  | cons u rest ih =>
    unfold InstanceEach at h
    obtain ⟨x, xs, -, hxs, rfl⟩ := h
    rw [List.length_cons, List.length_cons, ih hxs]

end Value

/-- Two frames bind the same names to alike values. -/
def Frame.Alike (frame frame' : Frame) : Prop :=
  ∀ name, (frame.get? name = none ∧ frame'.get? name = none) ∨
    ∃ b b', frame.get? name = some b ∧ frame'.get? name = some b' ∧ Value.Alike b.value b'.value

theorem Frame.Alike.put {frame frame' : Frame} (h : frame.Alike frame') {v v' : Value}
    (hv : Value.Alike v v') (name : String) :
    (frame.put name ⟨v, none⟩).Alike (frame'.put name ⟨v', none⟩) := by
  intro other
  rw [Frame.get?_put, Frame.get?_put]
  by_cases he : other = name
  · rw [if_pos he, if_pos he]
    exact Or.inr ⟨_, _, rfl, rfl, hv⟩
  · rw [if_neg he, if_neg he]
    exact h other

namespace Value

mutual

/-- **Two instances of one template are alike if their frames are.** -/
theorem alike_of_instance {frame frame' : Frame} (hf : frame.Alike frame') (template : Value)
    {a b : Value} (ha : Instance frame template a) (hb : Instance frame' template b) : Alike a b := by
  match template with
  | nil | bool _ | num _ | text _ | keyword _ | builtin _ _ _ | closure _ _ _ _ _ _ | atom _ =>
    unfold Instance at ha hb
    rw [ha, hb]
    exact Alike.refl _
  | symbol id name =>
    unfold Instance at ha hb
    rcases hf name with ⟨hn, hn'⟩ | ⟨c, c', hc, hc', halike⟩
    · rw [ha, hb, hn, hn']
      exact Alike.refl _
    · rw [ha, hb, hc, hc']
      exact halike
  | seq shape node items =>
    unfold Instance at ha hb
    obtain ⟨node₁, vs, hs, hvs, rfl⟩ := ha
    obtain ⟨node₂, ws, hs', hws, rfl⟩ := hb
    unfold Alike
    exact ⟨node₂, ws, hs'.trans hs.symm, alike_of_instanceEach hf items hvs hws, rfl⟩
  | map node entries =>
    unfold Instance at ha hb
    obtain ⟨node₁, vs, hs, hvs, rfl⟩ := ha
    obtain ⟨node₂, ws, hs', hws, rfl⟩ := hb
    unfold Alike
    exact ⟨node₂, ws, hs'.trans hs.symm, alike_of_instanceEntries hf entries hvs hws, rfl⟩

theorem alike_of_instanceEach {frame frame' : Frame} (hf : frame.Alike frame') (items : List Value)
    {vs ws : List Value} (hv : InstanceEach frame items vs) (hw : InstanceEach frame' items ws) :
    AlikeEach vs ws := by
  match items with
  | [] =>
    unfold InstanceEach at hv hw
    rw [hv, hw]
    exact AlikeEach.refl _
  | item :: rest =>
    unfold InstanceEach at hv hw
    obtain ⟨x, xs, hx, hxs, rfl⟩ := hv
    obtain ⟨y, ys, hy, hys, rfl⟩ := hw
    unfold AlikeEach
    exact ⟨y, ys, alike_of_instance hf item hx hy, alike_of_instanceEach hf rest hxs hys, rfl⟩

theorem alike_of_instanceEntries {frame frame' : Frame} (hf : frame.Alike frame')
    (entries : List (Key × Value)) {es fs : List (Key × Value)} (he : InstanceEntries frame entries es)
    (hw : InstanceEntries frame' entries fs) : AlikeEntries es fs := by
  match entries with
  | [] =>
    unfold InstanceEntries at he hw
    rw [he, hw]
    exact AlikeEntries.refl _
  | (k, item) :: rest =>
    unfold InstanceEntries at he hw
    obtain ⟨x, xs, hx, hxs, rfl⟩ := he
    obtain ⟨y, ys, hy, hys, rfl⟩ := hw
    unfold AlikeEntries
    exact ⟨y, ys, alike_of_instance hf item hx hy, alike_of_instanceEntries hf rest hxs hys, rfl⟩

end

end Value

/-! ## Parameters -/

/-- Alike values are taken apart alike. -/
theorem Value.Alike.parts {v v' : Value} (h : v.Alike v') {vs ws : List Value}
    (hv : Pattern.parts? v = some vs) (hw : Pattern.parts? v' = some ws) : Value.AlikeEach vs ws := by
  cases v with
  | nil =>
    unfold Value.Alike at h
    rw [h] at hw
    cases hv
    cases hw
    exact Value.AlikeEach.refl _
  | seq shape node items =>
    unfold Value.Alike at h
    obtain ⟨node', items', -, hitems, rfl⟩ := h
    cases hv
    cases hw
    exact hitems
  | _ => cases hv

namespace Pattern

mutual

/-- **A pattern binds alike values in alike frames.** -/
theorem alike_of_binds (pattern : Value) {v v' : Value} {f f' g g' : Frame} (hv : v.Alike v')
    (hf : f.Alike f') (h : Binds pattern v f g) (h' : Binds pattern v' f' g') : g.Alike g' := by
  match pattern with
  | .symbol id name =>
    unfold Binds at h h'
    rw [h, h']
    exact hf.put hv name
  | .seq .vector node items =>
    unfold Binds at h h'
    obtain ⟨parts, hp, h⟩ := h
    obtain ⟨parts', hp', h'⟩ := h'
    exact alike_of_bindsEach items (hv.parts hp hp') hf h h'
  | .seq .list _ _ | .nil | .bool _ | .num _ | .text _ | .keyword _ | .map _ _ | .builtin _ _ _
  | .closure _ _ _ _ _ _ | .atom _ =>
    unfold Binds at h
    exact h.elim

theorem alike_of_bindsEach (items : List Value) {vs ws : List Value} {f f' g g' : Frame}
    (hv : Value.AlikeEach vs ws) (hf : f.Alike f') (h : BindsEach items vs f g)
    (h' : BindsEach items ws f' g') : g.Alike g' := by
  match items with
  | [] =>
    unfold BindsEach at h h'
    rw [h.2, h'.2]
    exact hf
  | item :: rest =>
    unfold BindsEach at h h'
    split at h
    · rename_i hr
      rw [if_pos hr] at h'
      match rest with
      | [] => exact h.elim
      | last :: _ =>
        obtain ⟨id, h⟩ := h
        obtain ⟨id', h'⟩ := h'
        refine alike_of_binds last ?_ hf h h'
        unfold Value.Alike
        exact ⟨.bare id', ws, rfl, hv, rfl⟩
    · rename_i hr
      rw [if_neg hr] at h'
      match vs with
      | [] => exact h.elim
      | x :: xs =>
        unfold Value.AlikeEach at hv
        obtain ⟨y, ys, hx, hxs, rfl⟩ := hv
        obtain ⟨middle, hb, hbs⟩ := h
        obtain ⟨middle', hb', hbs'⟩ := h'
        exact alike_of_bindsEach rest hxs (alike_of_binds item hx hf hb hb') hbs hbs'

end

end Pattern

/-! ## Substitution -/

/-- The values that a frame binds are known. -/
def Registry.FrameKnown (R : Registry) (frame : Frame) : Prop := ∀ e ∈ frame, R.Known e.2.value

theorem Registry.FrameKnown.mono {R R' : Registry} {frame : Frame} (h : R.FrameKnown frame)
    (hle : R ≤ R') : R'.FrameKnown frame := fun e he => (h e he).mono hle

theorem Registry.FrameKnown.get? {R : Registry} {frame : Frame} (h : R.FrameKnown frame) {name : String}
    {b : Binding} (hb : frame.get? name = some b) : R.Known b.value := by
  induction frame with
  | nil => cases hb
  | cons e rest ih =>
    obtain ⟨he, hrest⟩ := List.forall_mem_cons.mp h
    unfold Frame.get? at hb
    split at hb
    · cases hb
      exact he
    · exact ih hrest hb

mutual

/-- **What substitution makes is a known instance of the template.** -/
theorem keeps_substitute {R : Registry} {frame : Frame} (hf : R.FrameKnown frame) (v : Value)
    (hv : R.Known v) : Keeps R (liftM (substitute frame v)) fun R' form =>
      R'.Known form ∧ v.Instance frame form := by
  refine Keeps.of_ok fun w hw => ?_
  have hparts := hw.partsKnown hv
  have hlaid := hw.isLaidOut hv
  match v with
  | .nil | .bool _ | .num _ | .text _ | .keyword _ | .builtin _ _ _ | .closure _ _ _ _ _ _ | .atom _ =>
    unfold substitute Value.Instance
    exact Keeps.pure ⟨hv, rfl⟩
  | .symbol id name =>
    unfold substitute Value.Instance
    refine Keeps.pure ⟨?_, rfl⟩
    cases hb : frame.get? name with
    | none => exact hv
    | some b => exact hf.get? hb
  | .seq shape node items =>
    unfold substitute Value.Instance
    rw [lift_bind]
    refine Keeps.bind (keeps_substituteItems hf items hparts #[] allKnown_nil) fun R₁ vs hle hvs => ?_
    obtain ⟨hknown, hadded⟩ := hvs
    have hinstance := of_added_to_nothing hadded
    rw [lift_bind]
    have hlays : node.Lays items := hlaid node rfl
    refine Keeps.bind (keeps_copyGaps (k := fun node' => .seq shape node' vs) (fun _ => hknown)
      fun w id => Value.isLaidOut_of_lays rfl (hlays.mapped rfl w id hinstance.length)) fun R₂ node' _ hn => ?_
    exact Keeps.pure ⟨hn.1, node', vs, hn.2, hinstance, rfl⟩
  | .map node entries =>
    unfold substitute Value.Instance
    rw [lift_bind]
    refine Keeps.bind (keeps_substituteEntries hf entries hparts.2 #[] nofun) fun R₁ es hle hes => ?_
    obtain ⟨hknown, hadded⟩ := hes
    have hinstance := of_added_to_nothing hadded
    rw [lift_bind]
    have hlays : node.Lays (Value.map node entries).children := hlaid node rfl
    have hlen : ∀ node', (Value.map node' es).children.length = (Value.map node entries).children.length :=
      fun node' => by rw [Value.length_children_map, Value.length_children_map, hinstance.length]
    refine Keeps.bind (keeps_copyGaps (k := fun node' => .map node' es)
      (fun _ => ⟨hinstance.names ▸ hparts.1, hknown⟩)
      fun w id => Value.isLaidOut_of_lays rfl (hlays.mapped (Value.length_children_map _ _) w id (hlen _)))
      fun R₂ node' _ hn => ?_
    exact Keeps.pure ⟨hn.1, node', es, hn.2, hinstance, rfl⟩

theorem keeps_substituteItems {R : Registry} {frame : Frame} (hf : R.FrameKnown frame)
    (items : List Value) (hi : R.AllKnown items) (done : Array Value) (hd : R.AllKnown done.toList) :
    Keeps R (liftM (substituteItems frame done items)) fun R' vs =>
      R'.AllKnown vs ∧ ∃ ws, vs = done.toList ++ ws ∧ Value.InstanceEach frame items ws := by
  match items with
  | [] =>
    unfold substituteItems Value.InstanceEach
    exact Keeps.pure ⟨hd, [], (List.append_nil _).symm, rfl⟩
  | v :: rest =>
    obtain ⟨hv, hrest⟩ := allKnown_cons.mp hi
    unfold substituteItems Value.InstanceEach
    rw [lift_bind]
    refine Keeps.bind (keeps_substitute hf v hv) fun R₁ v' hle hv' => ?_
    have hd' := allKnown_push (hd.mono hle) hv'.1
    refine Keeps.mono (keeps_substituteItems (hf.mono hle) rest (hrest.mono hle) _ hd')
      fun R₂ vs _ hvs => ?_
    obtain ⟨hknown, ws, rfl, hinstance⟩ := hvs
    refine ⟨hknown, v' :: ws, ?_, v', ws, hv'.2, hinstance, rfl⟩
    rw [Array.toList_push, List.append_assoc, List.singleton_append]

theorem keeps_substituteEntries {R : Registry} {frame : Frame} (hf : R.FrameKnown frame)
    (entries : List (Key × Value)) (he : R.EntriesKnown entries) (done : Array (Key × Value))
    (hd : R.EntriesKnown done.toList) : Keeps R (liftM (substituteEntries frame done entries))
      fun R' es => R'.EntriesKnown es ∧ ∃ ws, es = done.toList ++ ws ∧
        Value.InstanceEntries frame entries ws := by
  match entries with
  | [] =>
    unfold substituteEntries Value.InstanceEntries
    exact Keeps.pure ⟨hd, [], (List.append_nil _).symm, rfl⟩
  | (k, v) :: rest =>
    obtain ⟨⟨hk, hv⟩, hrest⟩ := List.forall_mem_cons.mp he
    unfold substituteEntries Value.InstanceEntries
    rw [lift_bind]
    refine Keeps.bind (keeps_substitute hf v hv) fun R₁ v' hle hv' => ?_
    have hd' := entriesKnown_push (hd.mono hle) (hk.mono hle) hv'.1
    refine Keeps.mono (keeps_substituteEntries (hf.mono hle) rest (EntriesKnown.mono hrest hle) _ hd')
      fun R₂ es _ hes => ?_
    obtain ⟨hknown, ws, rfl, hinstance⟩ := hes
    refine ⟨hknown, (k, v') :: ws, ?_, v', ws, hv'.2, hinstance, rfl⟩
    rw [Array.toList_push, List.append_assoc, List.singleton_append]

end

variable {R : Registry}

/-- **A template with bound parameters comes to a known instance of itself.** -/
theorem keeps_instantiate {template : Value} {env : Env} {content : Frame} (ht : R.Known template)
    (he : R.frame env.frame = some (.template (some content))) :
    Keeps R (liftM (instantiate template env)) fun R' form =>
      R'.Known form ∧ template.Instance content form := by
  unfold instantiate
  rw [lift_bind]
  refine Steady.bind_keeps steady_liftGet fun w hw => ?_
  rw [hw.settled _ _ he]
  refine keeps_substitute (fun e hm => ?_) template ht
  rw [← hw.settled _ _ he] at hm
  exact (hw.bindings _ e hm).1

/-! ## Entering -/

mutual

/-- Destructuring may write any frame that may be written. -/
theorem keeps_destructure {R : Registry} {env : Env} (he : R.Writable env.frame) (pattern : Value)
    {v : Value} (hp : R.Known pattern) (hv : R.Known v) :
    Keeps R (Pattern.destructure env pattern v) fun _ _ => True := by
  refine Keeps.of_ok fun w hw => ?_
  have hparts := hw.partsKnown hp
  have hvalue := hw.partsKnown hv
  match pattern with
  | .symbol id name =>
    unfold Pattern.destructure
    exact (steady_define he hv name).keeps fun _ h => h
  | .seq .vector node items =>
    unfold Pattern.destructure
    split
    · rename_i parts hpv
      refine keeps_destructureItems he hp items hparts ?_
      unfold Pattern.parts? at hpv
      split at hpv
      · cases hpv
        exact hvalue
      · cases hpv
        exact allKnown_nil
      · cases hpv
    · refine (steady_print hv).bind_keeps fun _ _ => ?_
      exact (steady_print hp).bind_keeps fun _ _ => Keeps.fail _
  | .seq .list _ _ | .nil | .bool _ | .num _ | .text _ | .keyword _ | .map _ _ | .builtin _ _ _
  | .closure _ _ _ _ _ _ | .atom _ =>
    unfold Pattern.destructure
    exact (steady_print hp).bind_keeps fun _ _ => Keeps.fail _

theorem keeps_destructureItems {R : Registry} {env : Env} (he : R.Writable env.frame) {whole : Value}
    (hw : R.Known whole) {wanted got : Nat} {values : List Value} (items : List Value)
    (hi : R.AllKnown items) (hv : R.AllKnown values) :
    Keeps R (Pattern.destructureItems env whole wanted got values items) fun _ _ => True := by
  match items with
  | [] =>
    unfold Pattern.destructureItems
    split
    · exact Keeps.pure trivial
    · exact Keeps.fail _
  | item :: rest =>
    obtain ⟨hitem, hrest⟩ := allKnown_cons.mp hi
    unfold Pattern.destructureItems
    split
    · match rest with
      | [] => exact (steady_print hw).bind_keeps fun _ _ => Keeps.fail _
      | last :: _ =>
        refine Keeps.bind (keeps_newVector hv) fun R' vector hle hvector => ?_
        exact keeps_destructure (he.mono hle) last ((allKnown_cons.mp hrest).1.mono hle) hvector
    · match values with
      | [] => exact Keeps.fail _
      | v :: vs =>
        obtain ⟨hfirst, hvs⟩ := allKnown_cons.mp hv
        refine Keeps.bind (keeps_destructure he item hitem hfirst) fun R' _ hle _ => ?_
        exact keeps_destructureItems (he.mono hle) (hw.mono hle) rest (hrest.mono hle) (hvs.mono hle)

end

/-- A call enters a new scope. -/
theorem keeps_enter {env : Env} {params : Value} {args : List Value} (he : R.InScope env)
    (hp : R.Known params) (ha : R.AllKnown args) : Keeps R (Machine.enter env params args) InScope := by
  unfold Machine.enter
  refine Keeps.bind (keeps_newScope he) fun R₁ frame hle hframe => ?_
  refine Keeps.bind (keeps_newVector (ha.mono hle)) fun R₂ vector hle' hvector => ?_
  refine Keeps.bind (keeps_destructure (hframe.mono hle').writable params ((hp.mono hle).mono hle') hvector)
    fun R₃ _ hle'' _ => ?_
  exact Keeps.pure ((hframe.mono hle').mono hle'')

namespace Registry

/-- A registry in which the content of a frame is settled. -/
def settle (R : Registry) (id : FrameId) (content : Frame) : Registry :=
  R.withFrame id (.template (some content))

variable {id : FrameId} {content : Frame}

theorem Known.settle {v : Value} (h : R.Known v) : (R.settle id content).Known v := by
  cases v <;> exact h

theorem frame_settle (hid : R.frame id = some (.template none)) {other : FrameId} {use : FrameUse}
    (h : R.frame other = some use) (hne : use ≠ .template none) :
    (R.settle id content).frame other = some use := by
  show (if other = id then _ else R.frame other) = some use
  rw [if_neg]
  · exact h
  · rintro rfl
    rw [hid] at h
    cases h
    exact hne rfl

/-- **The frame of a template may be settled when its parameters are bound.** -/
theorem Ok.settle {w : World} (h : R.Ok w) (hid : R.frame id = some (.template none)) :
    (R.settle id (w.frame id)).Ok w where
  tables other := ⟨fun e he => ((h.tables other).1 e he).settle, fun e he => ((h.tables other).2 e he).settle⟩
  atoms v hv := (h.atoms v hv).settle
  results id v e := (h.results id v e).settle
  sites id v e := (h.sites id v e).settle
  expansions node e he := by
    have := h.expansions node e he
    cases e with
    | constant => exact ⟨this.1.settle, this.2.1.settle, fun l hl => (this.2.2 l hl).settle⟩
    | bound =>
      obtain ⟨hknown, function, params, scope, data, node, items, content, vector, hmaker, henv, hcall,
        hframe, hb⟩ := this
      exact ⟨hknown.settle, function, params, scope, data, node, items, content, vector, hmaker, henv,
        hcall, frame_settle hid hframe nofun, hb⟩
    | unchanged => trivial
  recordings reads hr l hl := (h.recordings reads hr l hl).settle
  derived := h.derived
  texts := h.texts
  spaced := h.spaced
  nodes := h.nodes
  layouts := h.layouts
  parts node v hv := by
    have hp := h.parts node v hv
    cases v with
    | seq => exact fun u hu => (hp u hu).settle
    | map =>
      refine ⟨hp.1, fun e he => ⟨?_, (hp.2 e he).2.settle⟩⟩
      have hk := (hp.2 e he).1
      generalize e.1 = k at hk ⊢
      cases k <;> exact hk
    | builtin => exact Known.settle hp
    | closure =>
      refine ⟨hp.1.settle, hp.2.1.settle, ⟨fun other ho => ?_, hp.2.2.1.2⟩, hp.2.2.2.1.settle, hp.2.2.2.2⟩
      exact frame_settle hid (hp.2.2.1.1 other ho) nofun
    | _ => trivial
  frames other := by
    rw [h.frames other]
    show _ ↔ (if other = id then _ else R.frame other).isSome
    split
    · rename_i he
      rw [he, hid]
      rfl
    · rfl
  settled other content hc := by
    have hc' : (if other = id then some (.template (some (w.frame id))) else R.frame other) =
      some (.template (some content)) := hc
    split at hc'
    · rename_i he
      cases hc'
      rw [he]
    · exact h.settled other content hc'
  keywords := h.keywords
  names := h.names

end Registry

/-- **The call of a template enters a frame of its own**, which is settled to what the parameters bind. -/
theorem keeps_enter_template {env : Env} {params : Value} {args : List Value} (hp : R.Known params)
    (ha : R.AllKnown args) : Keeps R (Machine.enter env params args) fun R' frame =>
      frame = env.child frame.frame ∧ ∃ content vector,
        R'.frame frame.frame = some (.template (some content)) ∧
        Pattern.Binds params (.seq .vector (.bare vector) args) [] content := by
  intro w hw
  -- the registry in which the frame is not settled yet is dropped in the end
  let w₁ : World := { w with frames := w.frames.push .empty }
  let w₂ : World := { w₁ with nextId := w₁.nextId + 1 }
  let frame := env.child w.frames.size
  have hnew : (liftM (newChild env) : Act Env) w = .ok frame w₁ := rfl
  have hchild := @keeps_newChild R env (.template none) nofun w hw
  rw [hnew] at hchild
  obtain ⟨R₁, hle₁, hok₁, -, hframe₁⟩ := hchild
  have hvector := keeps_newVector (ha.mono hle₁) w₁ hok₁
  rw [Pattern.newVector_eq] at hvector
  obtain ⟨R₂, hle₂, hok₂, hvector⟩ := hvector
  have hframe₂ := hle₂.2.1 _ _ hframe₁
  have hle := le_trans hle₁ hle₂
  obtain ⟨R₃, hle₃, hdone⟩ := keeps_destructure (Or.inr hframe₂) params (hp.mono hle) hvector w₂ hok₂
  have hframe₃ := hle₃.2.1 _ _ hframe₂
  have hle' := le_trans hle hle₃
  unfold Machine.enter
  rw [bind_of_eq_ok hnew, bind_of_eq_ok (Pattern.newVector_eq args w₁)]
  cases hd : Pattern.destructure frame params (.seq .vector (.bare w₁.nextId) args) w₂ with
  | error h w₃ =>
    rw [hd] at hdone
    rw [bind_of_eq_error hd]
    exact ⟨R₃, hle', hdone⟩
  | ok u w₃ =>
    rw [hd] at hdone
    rw [bind_of_eq_ok hd]
    have hsize : frame.frame < w₂.frames.size := by
      show w.frames.size < (w.frames.push .empty).size
      rw [Array.size_push]
      omega
    obtain ⟨hbinds, -⟩ := Pattern.binds_of_destructure params _ hsize hd
    have hempty : w₂.frame frame.frame = [] := by
      show (newChild env w).2.frame w.frames.size = []
      rw [frame_newChild]
      exact World.frame_of_size_le (Nat.le_refl _)
    rw [hempty] at hbinds
    refine ⟨R₃.settle frame.frame (w₃.frame frame.frame), ?_, hdone.1.settle hframe₃, rfl, _, _,
      if_pos rfl, hbinds⟩
    refine ⟨hle'.1, fun other use ho => ?_, hle'.2.2⟩
    show (if other = frame.frame then _ else R₃.frame other) = some use
    rw [if_neg]
    · exact hle'.2.1 other use ho
    · rintro rfl
      have hnone : R.frame frame.frame = none := hw.frame_size
      rw [hnone] at ho
      cases ho

end EditableLisp
