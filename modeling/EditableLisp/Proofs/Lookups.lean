import EditableLisp.Expansion

/-!
# First lookups

`Lookup.firsts` is the first lookup of each name in each frame, in order. It is what a recording comes to
when it is finished (`firstLookups_eq_firsts`), and what was recorded in parts comes to the same, whether or
not the parts were finished before (`Lookup.firsts_append_congr`, `Lookup.firsts_firsts`).
-/

namespace EditableLisp

namespace Lookup

variable {l : Lookup} {reads reads' more more' : List Lookup}

/-- Two lookups are of one name in one frame. -/
def SamePlace (l l' : Lookup) : Prop := l.env.frame = l'.env.frame ∧ l.name = l'.name

instance : DecidableRel SamePlace := fun l l' =>
  inferInstanceAs (Decidable (l.env.frame = l'.env.frame ∧ l.name = l'.name))

namespace SamePlace

theorem refl (l : Lookup) : l.SamePlace l := ⟨rfl, rfl⟩

theorem symm {l l' : Lookup} (h : l.SamePlace l') : l'.SamePlace l := ⟨h.1.symm, h.2.symm⟩

theorem trans {l l' l'' : Lookup} (h : l.SamePlace l') (h' : l'.SamePlace l'') : l.SamePlace l'' :=
  ⟨h.1.trans h'.1, h.2.trans h'.2⟩

end SamePlace

/-- The first lookup of each name in each frame, in order. -/
def firsts : List Lookup → List Lookup
  | [] => []
  | l :: rest => l :: (firsts rest).filter fun l' => ¬ l.SamePlace l'

theorem mem_of_mem_firsts (h : l ∈ firsts reads) : l ∈ reads := by
  induction reads with
  | nil => exact h
  | cons first rest ih =>
    rcases List.mem_cons.mp h with rfl | hrest
    · exact List.mem_cons_self
    · exact List.mem_cons_of_mem _ (ih (List.mem_filter.mp hrest).1)

/-- Of each name in each frame there is exactly one lookup, the first. -/
theorem filter_firsts (l : Lookup) (reads : List Lookup) :
    (firsts reads).filter (l.SamePlace ·) = (reads.find? (l.SamePlace ·)).toList := by
  induction reads with
  | nil => rfl
  | cons first rest ih =>
    unfold firsts
    by_cases h : l.SamePlace first
    · have hnone : ∀ l' ∈ (firsts rest).filter fun l' => ¬ first.SamePlace l', ¬ l.SamePlace l' :=
        fun l' hl' hsame => of_decide_eq_true (List.mem_filter.mp hl').2 (h.symm.trans hsame)
      have hrest : ((firsts rest).filter fun l' => ¬ first.SamePlace l').filter (l.SamePlace ·) = [] :=
        List.filter_eq_nil_iff.mpr fun l' hl' hsame => hnone l' hl' (of_decide_eq_true hsame)
      rw [List.filter_cons_of_pos (by simpa using h), List.find?_cons_of_pos (by simpa using h), hrest]
      rfl
    · rw [List.filter_cons_of_neg (by simpa using h), List.find?_cons_of_neg (by simpa using h), ← ih,
        List.filter_filter]
      refine List.filter_congr fun l' _ => ?_
      have himp : l.SamePlace l' → ¬ first.SamePlace l' := fun hl hf => h (hl.trans hf.symm)
      by_cases hl : l.SamePlace l'
      · simp [hl, himp hl]
      · simp [hl]

/-- Lookups of some names only, where a name is chosen for all its lookups in a frame or for none. -/
theorem firsts_filter {p : Lookup → Bool} (hp : ∀ l l' : Lookup, l.SamePlace l' → p l = p l')
    (reads : List Lookup) : firsts (reads.filter p) = (firsts reads).filter p := by
  induction reads with
  | nil => rfl
  | cons first rest ih =>
    cases h : p first with
    | true =>
      rw [List.filter_cons_of_pos h, firsts, firsts, List.filter_cons_of_pos h, ih, List.filter_filter,
        List.filter_filter]
      exact congrArg _ (List.filter_congr fun l' _ => Bool.and_comm _ _)
    | false =>
      have hne : p first ≠ true := by rw [h]; nofun
      rw [List.filter_cons_of_neg hne, firsts, List.filter_cons_of_neg hne, ih, List.filter_filter]
      refine List.filter_congr fun l' _ => ?_
      cases hl : p l' with
      | false => rfl
      | true =>
        have hother : ¬ first.SamePlace l' := fun hs => by
          rw [hp _ _ hs, hl] at h
          cases h
        simp [hother]

/-- What the first lookups of some lookups leave of others. -/
def elsewhere (found : List Lookup) (l : Lookup) : Bool := ∀ l' ∈ found, ¬ l'.SamePlace l

theorem firsts_append (reads more : List Lookup) :
    firsts (reads ++ more) = firsts reads ++ (firsts more).filter (elsewhere (firsts reads)) := by
  induction reads with
  | nil =>
    have hall : (firsts more).filter (elsewhere []) = firsts more :=
      List.filter_eq_self.mpr fun l' _ => by simp [elsewhere]
    exact hall.symm
  | cons first rest ih =>
    rw [List.cons_append, firsts, firsts, ih, List.filter_append, List.filter_filter, List.cons_append]
    congr 2
    refine List.filter_congr fun l' _ => ?_
    by_cases hfirst : first.SamePlace l'
    · simp [elsewhere, hfirst]
    · -- a lookup at the place of the first one is at no place of what is elsewhere
      have hother : ∀ l'' : Lookup, first.SamePlace l'' → ¬ l''.SamePlace l' :=
        fun l'' hs hs' => hfirst (hs.trans hs')
      have hiff : (∀ l'' ∈ first :: (firsts rest).filter fun l' => ¬ first.SamePlace l', ¬ l''.SamePlace l') ↔
          ∀ l'' ∈ firsts rest, ¬ l''.SamePlace l' := by
        refine ⟨fun h l'' hm => ?_, fun h => List.forall_mem_cons.mpr ⟨hfirst, fun l'' hm => ?_⟩⟩
        · by_cases hs : first.SamePlace l''
          · exact hother l'' hs
          · exact h l'' (List.mem_cons_of_mem _ (List.mem_filter.mpr ⟨hm, decide_eq_true hs⟩))
        · exact h l'' (List.mem_filter.mp hm).1
      rw [decide_eq_true hfirst, Bool.true_and]
      exact decide_eq_decide.mpr hiff.symm

theorem firsts_append_congr (h : firsts reads = firsts reads') (hmore : firsts more = firsts more') :
    firsts (reads ++ more) = firsts (reads' ++ more') := by
  rw [firsts_append, firsts_append, h, hmore]

theorem firsts_firsts (reads : List Lookup) : firsts (firsts reads) = firsts reads := by
  induction reads with
  | nil => rfl
  | cons first rest ih =>
    have hcongr : ∀ l l' : Lookup, l.SamePlace l' →
        decide (¬ first.SamePlace l) = decide (¬ first.SamePlace l') :=
      fun l l' h => decide_eq_decide.mpr (not_congr ⟨fun hs => hs.trans h, fun hs => hs.trans h.symm⟩)
    rw [firsts, firsts, firsts_filter hcongr, ih, List.filter_filter]
    simp only [Bool.and_self]

end Lookup

open Lookup

/-- **A recording comes to its first lookups.** -/
theorem firstLookups_eq_firsts (reads : List Lookup) : firstLookups reads = firsts reads := by
  -- to what was kept come the first lookups of all names that were not seen
  have run : ∀ (reads : List Lookup) (seen : Std.TreeMap Nat (List String)) (kept : Array Lookup),
      (reads.foldl (fun (acc : Std.TreeMap Nat (List String) × Array Lookup) l =>
        if (acc.1.getD l.env.frame []).contains l.name then (acc.1, acc.2)
        else (acc.1.insert l.env.frame (l.name :: acc.1.getD l.env.frame []), acc.2.push l))
        (seen, kept)).2.toList =
      kept.toList ++ (firsts reads).filter fun l => l.name ∉ seen.getD l.env.frame [] := by
    intro reads
    induction reads with
    | nil => exact fun _ kept => (List.append_nil _).symm
    | cons next rest ih =>
      intro seen kept
      rw [List.foldl_cons, firsts]
      split
      · rename_i hc
        have hseen : next.name ∈ seen.getD next.env.frame [] := List.contains_iff_mem.mp hc
        rw [ih, List.filter_cons_of_neg (by simpa using hseen), List.filter_filter]
        congr 1
        refine List.filter_congr fun l _ => ?_
        by_cases hl : next.SamePlace l
        · have hsame : l.name ∈ seen.getD l.env.frame [] := by rw [← hl.1, ← hl.2]; exact hseen
          simp [hl, hsame]
        · simp [hl]
      · rename_i hc
        have hseen : next.name ∉ seen.getD next.env.frame [] := fun h => hc (List.contains_iff_mem.mpr h)
        rw [ih, List.filter_cons_of_pos (by simpa using hseen), List.filter_filter, Array.toList_push,
          List.append_assoc, List.singleton_append]
        congr 2
        refine List.filter_congr fun l _ => ?_
        rw [Std.TreeMap.getD_insert]
        by_cases hframe : next.env.frame = l.env.frame
        · rw [if_pos (by rw [hframe]; exact Std.ReflCmp.compare_self)]
          by_cases hname : next.name = l.name
          · simp [SamePlace, hframe, hname]
          · simp [SamePlace, hframe, hname, Ne.symm hname]
        · rw [if_neg fun h => hframe (Std.LawfulEqCmp.eq_of_compare h)]
          simp [SamePlace, hframe]
  refine (run reads ∅ #[]).trans ?_
  rw [List.nil_append]
  exact List.filter_eq_self.mpr fun l _ => by simp [Std.TreeMap.getD_emptyc]

/-- The first lookups of names are among the lookups. -/
theorem mem_of_mem_firstLookups {reads : List Lookup} {l : Lookup} (h : l ∈ firstLookups reads) :
    l ∈ reads := by
  rw [firstLookups_eq_firsts] at h
  exact mem_of_mem_firsts h

end EditableLisp
