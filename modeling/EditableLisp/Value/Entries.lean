import EditableLisp.Value.Basic

/-!
# The entries of a map

A map (`Map`) is a list of entries in the order in which their keys were first put. Keys are compared by name:
the keyword `:a` and the string `"a"` are one key. Putting a key again overwrites its entry in place, the
key included, so the names of a map that was built by putting differ (`nodup_names_ofPairs`).
-/

namespace EditableLisp

/-- The entries of a map. -/
abbrev Entries := List (Key × Value)

namespace Entries

/-! ## Looking up -/

/-- The value under a name. -/
def byName? (entries : Entries) (name : String) : Option Value :=
  (entries.find? fun e => e.1.name == name).map Prod.snd

/-- An entry's key is this very keyword. -/
def hasKeyword (k : Keyword) (e : Key × Value) : Bool :=
  match e.1 with
  | .keyword k' => k'.id == k.id
  | .text _ => false

/-- The value under a key: that of the same keyword if there is one, else that of the same name. -/
def get? (entries : Entries) (key : Value) : Option Value :=
  match key with
  | .keyword k =>
    match entries.find? (hasKeyword k) with
    | some e => some e.2
    | none => byName? entries k.name
  | .text s => byName? entries s
  | _ => none

/-! ## Putting and removing -/

/-- Puts an entry: over the one with the same name, or at the end. -/
def put (key : Key) (value : Value) : Entries → Entries
  | [] => [(key, value)]
  | e :: rest => if e.1.name == key.name then (key, value) :: rest else e :: put key value rest

/-- Puts entries one after the other. -/
def putAll (entries : Entries) (pairs : Entries) : Entries :=
  pairs.foldl (fun es (k, v) => put k v es) entries

/-- The entries made of pairs. -/
def ofPairs (pairs : Entries) : Entries := putAll [] pairs

/-- The entries whose names are not among `names`. -/
def without (entries : Entries) (names : List String) : Entries :=
  entries.filter fun e => !names.contains e.1.name

/-- The names of the entries. -/
def names (entries : Entries) : List String := entries.map fun e => e.1.name

/-- The entry under a name. -/
def under? (entries : Entries) (name : String) : Option (Key × Value) :=
  entries.find? fun e => e.1.name == name

/-- The last entry under a name. -/
def lastUnder? (entries : Entries) (name : String) : Option (Key × Value) :=
  under? entries.reverse name

/-! ## Laws -/

/-- Putting an entry keeps the names but for a new one at the end. -/
theorem names_put (key : Key) (value : Value) (entries : Entries) :
    names (put key value entries) =
      if key.name ∈ names entries then names entries else names entries ++ [key.name] := by
  induction entries with
  | nil => simp [put, names]
  | cons e rest ih =>
    by_cases h : e.1.name = key.name
    · simp [put, names, h]
    · simp only [put, beq_iff_eq, h, if_false, names, List.map_cons, List.mem_cons] at ih ⊢
      have hne : key.name ≠ e.1.name := fun h' => h h'.symm
      by_cases hm : key.name ∈ List.map (fun e : Key × Value => e.1.name) rest
      · simp [ih, hm]
      · simp [ih, hm, hne]

/-- What was put under a name is found under it, key and value, and nothing else changes. -/
theorem under?_put (key : Key) (value : Value) (entries : Entries) (name : String) :
    (put key value entries).under? name =
      if key.name = name then some (key, value) else entries.under? name := by
  induction entries with
  | nil => by_cases h : key.name = name <;> simp [put, under?, h]
  | cons e rest ih =>
    rw [put]
    by_cases he : e.1.name = key.name
    · rw [if_pos (by simp [he])]
      by_cases h : key.name = name <;> simp [under?, he, h]
    · rw [if_neg (by simp [he])]
      simp only [under?] at ih ⊢
      rw [List.find?_cons, List.find?_cons]
      by_cases hn : e.1.name = name
      · have hk : ¬ key.name = name := fun h => he (hn.trans h.symm)
        simp [hn, hk]
      · simp only [beq_eq_false_iff_ne.mpr hn]
        exact ih

/-- The value that was put under a name is found under it. -/
theorem byName?_put (key : Key) (value : Value) (entries : Entries) (name : String) :
    (put key value entries).byName? name =
      if key.name = name then some value else entries.byName? name := by
  have h := congrArg (Option.map Prod.snd) (under?_put key value entries name)
  rw [apply_ite (Option.map Prod.snd)] at h
  exact h

/-- Putting entries one after the other: under each name is the last one put under it, or else what was there. -/
theorem under?_putAll (entries pairs : Entries) (name : String) :
    (putAll entries pairs).under? name = (pairs.lastUnder? name).or (entries.under? name) := by
  induction pairs generalizing entries with
  | nil => rfl
  | cons p rest ih =>
    have hlast : lastUnder? (p :: rest) name =
        (lastUnder? rest name).or (if p.1.name = name then some p else none) := by
      by_cases hp : p.1.name = name <;> simp [lastUnder?, under?, hp]
    have hput : under? (put p.1 p.2 entries) name =
        (if p.1.name = name then some p else none).or (entries.under? name) := by
      rw [under?_put]
      split <;> rfl
    calc under? (putAll (put p.1 p.2 entries) rest) name
        = (lastUnder? rest name).or (under? (put p.1 p.2 entries) name) := ih _
      _ = (lastUnder? (p :: rest) name).or (entries.under? name) := by
        rw [hput, hlast, Option.or_assoc]

/-- Putting entries one after the other keeps the names and adds the new ones at the end, in the order in which
they first appear. -/
theorem names_putAll (entries pairs : Entries) :
    names (putAll entries pairs) =
      names entries ++ ((names pairs).filter fun n => !(names entries).contains n).eraseDups := by
  induction pairs generalizing entries with
  | nil => simp [putAll, names]
  | cons p rest ih =>
    have hrest : names (putAll entries (p :: rest)) = names (putAll (put p.1 p.2 entries) rest) := rfl
    have hnames : names (p :: rest) = p.1.name :: names rest := rfl
    rw [hrest, ih, names_put, hnames]
    by_cases hp : p.1.name ∈ names entries
    · simp [hp]
    · simp only [hp, if_false, List.filter_cons, List.contains_eq_mem, decide_false, Bool.not_false,
        if_true, List.eraseDups_cons, List.append_assoc, List.singleton_append, List.filter_filter,
        List.mem_append, List.mem_singleton]
      congr 3
      refine List.filter_congr fun n _ => ?_
      by_cases hn : n = p.1.name <;> simp [hn]

/-- An entry is found by its name, where names differ. -/
theorem find?_name {es : Entries} (hn : (names es).Nodup) {e : Key × Value} (he : e ∈ es) :
    es.find? (fun e' => e'.1.name == e.1.name) = some e := by
  induction es with
  | nil => cases he
  | cons first rest ih =>
    obtain ⟨hfirst, hrest⟩ := List.nodup_cons.mp hn
    rcases List.mem_cons.mp he with rfl | he
    · exact List.find?_cons_of_pos (beq_self_eq_true e.1.name)
    · have hne : ¬ (first.1.name == e.1.name) = true := fun heq =>
        hfirst (List.mem_map.mpr ⟨e, he, (eq_of_beq heq).symm⟩)
      have hskip : (first :: rest).find? (fun e' => e'.1.name == e.1.name) =
          rest.find? (fun e' => e'.1.name == e.1.name) := List.find?_cons_of_neg hne
      rw [hskip, ih hrest he]

/-- Putting an entry keeps names pairwise different. -/
theorem nodup_names_put {key : Key} {value : Value} {entries : Entries}
    (h : (names entries).Nodup) : (names (put key value entries)).Nodup := by
  rw [names_put]
  split
  · exact h
  · rename_i hn
    refine List.nodup_append.mpr ⟨h, by simp, fun a ha b hb => ?_⟩
    rw [List.mem_singleton] at hb
    subst hb
    exact fun e => hn (e ▸ ha)

/-- Putting entries one after the other keeps names pairwise different. -/
theorem nodup_names_putAll {entries pairs : Entries} (h : (names entries).Nodup) :
    (names (putAll entries pairs)).Nodup := by
  induction pairs generalizing entries with
  | nil => exact h
  | cons p rest ih => exact ih (nodup_names_put h)

/-- The entries made of pairs have pairwise different names. -/
theorem nodup_names_ofPairs (pairs : Entries) : (names (ofPairs pairs)).Nodup :=
  nodup_names_putAll List.nodup_nil

/-- An entry of a new name is put at the end. -/
theorem put_of_notMem {key : Key} {value : Value} {entries : Entries}
    (h : key.name ∉ names entries) : put key value entries = entries ++ [(key, value)] := by
  induction entries with
  | nil => rfl
  | cons e rest ih =>
    have hn : key.name ∉ e.1.name :: names rest := h
    rw [List.mem_cons, not_or] at hn
    unfold put
    rw [if_neg fun he => hn.1 (eq_of_beq he).symm, ih hn.2]
    rfl

/-- Entries of different names are put one after the other. -/
theorem putAll_of_nodup {entries pairs : Entries} (h : (names (entries ++ pairs)).Nodup) :
    putAll entries pairs = entries ++ pairs := by
  induction pairs generalizing entries with
  | nil => exact (List.append_nil entries).symm
  | cons e rest ih =>
    have hput : put e.1 e.2 entries = entries ++ [e] := by
      refine put_of_notMem fun hm => ?_
      unfold names at h hm
      rw [List.map_append] at h
      exact (List.nodup_append.mp h).2.2 _ hm _ List.mem_cons_self rfl
    show putAll (put e.1 e.2 entries) rest = _
    rw [hput, ih (by rwa [List.append_assoc, List.singleton_append]), List.append_assoc,
      List.singleton_append]

theorem ofPairs_of_nodup {pairs : Entries} (h : (names pairs).Nodup) : ofPairs pairs = pairs :=
  putAll_of_nodup h

/-- What is left after removing names are the entries of other names. -/
theorem mem_without {entries : Entries} {removed : List String} {e : Key × Value} :
    e ∈ without entries removed ↔ e ∈ entries ∧ e.1.name ∉ removed := by
  simp [without, List.mem_filter]

end Entries

end EditableLisp
