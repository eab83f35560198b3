import Mathlib.Algebra.Ring.Nat
import EditableLisp.Proofs.Lexing

/-!
# Tokens that run together

A token that runs on takes up what follows: a name or number takes up the names, numbers and marks after it,
and a tilde the at sign. So a scan finds fewer tokens where tokens ran together. Counted by the nodes that they
add to a program (`weight`), the tokens of a text weigh at most what the lexemes weigh that the text was put
together from, and weigh as much only if no two of these ran together (`weight_scan`).
-/

namespace EditableLisp.Token

/-! ## Weight -/

/-- How many nodes a token adds to a program: a mark adds a list and the symbol at its head, and a closing
bracket adds none. -/
def weightOf : TokenKind → Nat
  | .closing _ => 0
  | .mark _ => 2
  | _ => 1

/-- How many nodes some tokens add. -/
def weight (ts : List Token) : Nat := (ts.map fun t => weightOf t.kind).sum

theorem weight_cons (t : Token) (ts : List Token) : weight (t :: ts) = weightOf t.kind + weight ts :=
  List.sum_cons

theorem weight_append (ts us : List Token) : weight (ts ++ us) = weight ts + weight us := by
  unfold weight
  rw [List.map_append, List.sum_append]

theorem weight_push (ts : Array Token) (t : Token) :
    weight (ts.push t).toList = weight ts.toList + weightOf t.kind := by
  rw [Array.toList_push, weight_append]
  rfl

/-! ## First characters -/

/-- A name or number starts with a character that nothing else starts with. -/
theorem Started.head_atom {l : String} (h : Started .atom l) {c : Char} (hc : l.toList.head? = some c) :
    startsAtom c := by
  generalize hm : Mode.atom = mode at h
  induction h with
  | atom hs =>
    rw [String.toList_singleton] at hc
    cases hc
    exact hs
  | extend h _ ih =>
    rw [← String.append_singleton, head?_append h.ne_empty] at hc
    exact ih hc rfl
  | _ => cases hm

/-- A string starts with a quote. -/
theorem Started.head_text {mode : Mode} {l : String} (h : Started mode l)
    (hm : ∃ content, mode = .text content ∨ mode = .escape content) : l.toList.head? = some '"' := by
  induction h with
  | tilde | atom | extend =>
    obtain ⟨_, hm | hm⟩ := hm <;> cases hm
  | quote => rfl
  | char h _ _ ih =>
    rw [← String.append_singleton, head?_append h.ne_empty]
    exact ih ⟨_, Or.inl rfl⟩
  | backslash h ih =>
    rw [← String.append_singleton, head?_append h.ne_empty]
    exact ih ⟨_, Or.inl rfl⟩
  | escaped h ih =>
    rw [← String.append_singleton, head?_append h.ne_empty]
    exact ih ⟨_, Or.inr rfl⟩

theorem endsAtom_of_markOf? {c : Char} {style : Style} (h : markOf? c = some style) : endsAtom c = false := by
  unfold markOf? at h
  split at h
  · rename_i hc
    subst hc
    decide
  · split at h
    · rename_i hc
      subst hc
      decide
    · split at h
      · rename_i hc
        subst hc
        decide
      · cases h

/-- A lexeme that starts without ending a name or number is a name, a number or a mark, and does not end one
later on. -/
theorem IsLexeme.word {kind : TokenKind} {l : String} (h : IsLexeme kind l) {c : Char}
    (hc : l.toList.head? = some c) (he : endsAtom c = false) :
    (∀ d ∈ l.toList, endsAtom d = false) ∧ 0 < weightOf kind := by
  cases h with
  | opening b | closing b =>
    rw [String.toList_singleton] at hc
    cases hc
    cases b <;> exact absurd he (by decide)
  | mark hm =>
    rw [String.toList_singleton]
    exact ⟨List.forall_mem_singleton.mpr (endsAtom_of_markOf? hm), Nat.zero_lt_two⟩
  | unquote => exact ⟨List.forall_mem_singleton.mpr (by decide), Nat.zero_lt_two⟩
  | spliceUnquote =>
    exact ⟨List.forall_mem_cons.mpr ⟨by decide, List.forall_mem_singleton.mpr (by decide)⟩, Nat.zero_lt_two⟩
  | text h =>
    rw [← String.append_singleton, head?_append h.ne_empty, h.head_text ⟨_, Or.inl rfl⟩] at hc
    cases hc
    exact absurd he (by decide)
  | atom h => exact ⟨h.word, Nat.zero_lt_one⟩

/-- A lexeme that starts with an at sign is the mark. -/
theorem IsLexeme.eq_at {kind : TokenKind} {l : String} (h : IsLexeme kind l) (hc : l.toList.head? = some '@') :
    l = "@" ∧ 0 < weightOf kind := by
  cases h with
  | opening b | closing b =>
    rw [String.toList_singleton] at hc
    cases b <;> cases hc
  | mark hm =>
    rw [String.toList_singleton] at hc
    cases hc
    exact ⟨rfl, Nat.zero_lt_two⟩
  | unquote | spliceUnquote => cases hc
  | text h =>
    rw [← String.append_singleton, head?_append h.ne_empty, h.head_text ⟨_, Or.inl rfl⟩] at hc
    cases hc
  | atom h =>
    exact absurd (h.head_atom hc) (by decide)

/-! ## Scans -/

namespace Scan

variable {s : Scan} {t : Token}

/-- The weight of what a scan has, once the token in progress has ended. -/
def found (s : Scan) : Nat := weight s.flush.tokens.toList

/-- A token that what is in progress does not take up is found. -/
theorem found_token (hs : s.flush.mode = .blank) (ht : t.WellFormed)
    (he : ∀ c, (t.blank ++ t.lexeme).toList.head? = some c → s.EndedBy c) :
    let after := (t.blank ++ t.lexeme).toList.foldl next s
    after.flush.mode = .blank ∧ after.found = s.found + weightOf t.kind ∧ after.mode = lastMode t.kind := by
  have hne : (t.blank ++ t.lexeme).toList ≠ [] := by
    rw [String.toList_append]
    exact List.append_ne_nil_of_right_ne_nil _ ht.lexeme.ne_empty
  have hflush : (t.blank ++ t.lexeme).toList.foldl next s = (t.blank ++ t.lexeme).toList.foldl next s.flush := by
    cases hl : (t.blank ++ t.lexeme).toList with
    | nil => exact absurd hl hne
    | cons c cs =>
      rw [List.foldl_cons, List.foldl_cons, next_flush (he c (by rw [hl]; rfl))]
  dsimp only
  rw [hflush, String.toList_append, List.foldl_append, ht.gap.foldl_next hs]
  obtain ⟨hflush, hmode⟩ := ht.lexeme.foldl_next
    (s := ⟨s.flush.pos + t.blank.utf8ByteSize, s.flush.start, s.flush.blank ++ t.blank, s.flush.lexeme,
      if false then .comment else .blank, s.flush.tokens⟩) rfl
  refine ⟨by rw [hflush]; rfl, ?_, hmode⟩
  unfold found
  rw [hflush]
  exact weight_push _ _

/-- A name or number takes up all that does not end it. -/
theorem foldl_next_word {cs : List Char} (h : ∀ c ∈ cs, endsAtom c = false) (hm : s.mode = .atom) :
    (cs.foldl next s).mode = .atom ∧ (cs.foldl next s).tokens = s.tokens := by
  induction cs generalizing s with
  | nil => exact ⟨hm, rfl⟩
  | cons c cs ih =>
    obtain ⟨hc, hcs⟩ := List.forall_mem_cons.mp h
    have hnext : s.next c = s.extend c .atom := by
      unfold next
      rw [hm]
      exact if_neg (Bool.eq_false_iff.mp hc)
    rw [List.foldl_cons, hnext]
    exact @ih (s.extend c .atom) hcs rfl

/-- A token that is taken up by what is in progress is not found. -/
theorem found_merged (ht : t.WellFormed) {c : Char}
    (hc : (t.blank ++ t.lexeme).toList.head? = some c) (he : ¬ s.EndedBy c) :
    let after := (t.blank ++ t.lexeme).toList.foldl next s
    after.flush.mode = .blank ∧ after.found = s.found ∧ 0 < weightOf t.kind := by
  have hcase : s.mode = .atom ∧ endsAtom c = false ∨ s.mode = .tilde ∧ c = '@' := by
    by_cases ha : s.mode = .atom
    · refine Or.inl ⟨ha, Bool.eq_false_iff.mpr fun hends => he ⟨fun _ => hends, fun ht => ?_⟩⟩
      rw [ha] at ht
      cases ht
    · by_cases hm : s.mode = .tilde
      · exact Or.inr ⟨hm, Decidable.byContradiction fun hne => he ⟨fun h => absurd h ha, fun _ => hne⟩⟩
      · exact absurd ⟨fun h => absurd h ha, fun h => absurd h hm⟩ he
  -- blank text would have ended it
  have hblank : t.blank = "" := by
    cases hb : t.blank.toList.head? with
    | none => exact String.toList_eq_nil_iff.mp (List.head?_eq_none_iff.mp hb)
    | some d =>
      rw [String.toList_append, List.head?_append, hb, Option.some_or] at hc
      cases hc
      obtain ⟨hends, hat⟩ := ht.gap.head hb
      rcases hcase with ⟨-, hn⟩ | ⟨-, rfl⟩
      · rw [hends] at hn
        cases hn
      · exact absurd rfl hat
  rw [hblank, String.empty_append] at hc ⊢
  rcases hcase with ⟨hm, hends⟩ | ⟨hm, rfl⟩
  · obtain ⟨hword, hweight⟩ := ht.lexeme.word hc hends
    obtain ⟨hmode, htokens⟩ := foldl_next_word hword hm
    refine ⟨?_, ?_, hweight⟩
    · unfold flush
      rw [hmode]
      rfl
    · unfold found flush
      rw [hmode, hm]
      dsimp only [emit]
      rw [weight_push, weight_push, htokens]
  · obtain ⟨hl, hweight⟩ := ht.lexeme.eq_at hc
    have hnext : "@".toList.foldl next s = (s.extend '@' .blank).emit (.mark .spliceUnquote)
        (s.extend '@' .blank).pos := by
      show s.next '@' = _
      unfold next
      rw [hm]
      rfl
    dsimp only
    rw [hl, hnext]
    refine ⟨rfl, ?_, hweight⟩
    unfold found flush
    rw [hm]
    show weight (s.tokens.push _).toList = weight (s.tokens.push _).toList
    rw [weight_push, weight_push]
    rfl

end Scan

/-- What a scan finds in lexemes after gaps weighs at most what they weigh, and as much only if no two of them
run together. -/
theorem Scan.found_textOf {s : Scan} {ts : List Token} {tail : String} {inside : Bool}
    (hs : s.flush.mode = .blank) (hw : ∀ t ∈ ts, t.WellFormed) (hg : Gap inside tail) :
    let after := (textOf ts ++ tail).toList.foldl next s
    after.flush.mode.isIdle ∧ after.found ≤ s.found + weight ts ∧ (after.found = s.found + weight ts →
      Cut tail ts ∧ ∀ c, (textOf ts ++ tail).toList.head? = some c → s.EndedBy c) := by
  induction ts generalizing s with
  | nil =>
    have hended : ∀ c, tail.toList.head? = some c → s.EndedBy c := fun c hc =>
      ⟨fun _ => (hg.head hc).1, fun _ => (hg.head hc).2⟩
    have hafter := flush_foldl_next hended
    rw [hg.foldl_next hs] at hafter
    dsimp only
    rw [textOf, String.empty_append]
    unfold Scan.found
    rw [← hafter]
    refine ⟨by cases inside <;> rfl, by cases inside <;> exact Nat.le_refl _, fun _ => ⟨trivial, hended⟩⟩
  | cons t rest ih =>
    obtain ⟨ht, hrest⟩ := List.forall_mem_cons.mp hw
    have hne : (t.blank ++ t.lexeme).toList ≠ [] := by
      rw [String.toList_append]
      exact List.append_ne_nil_of_right_ne_nil _ ht.lexeme.ne_empty
    have htext : Token.textOf (t :: rest) ++ tail = (t.blank ++ t.lexeme) ++ (Token.textOf rest ++ tail) :=
      String.append_assoc
    dsimp only
    rw [htext, head?_append hne, String.toList_append, List.foldl_append, weight_cons]
    by_cases he : ∀ c, (t.blank ++ t.lexeme).toList.head? = some c → s.EndedBy c
    · obtain ⟨hmode, hfound, hlast⟩ := found_token hs ht he
      obtain ⟨hidle, hle, hcut⟩ := ih hmode hrest
      refine ⟨hidle, by omega, fun heq => ⟨?_, he⟩⟩
      obtain ⟨hcut, hended⟩ := hcut (by omega)
      exact ⟨fun c hc => (endedBy_iff hlast).mp (hended c hc), hcut⟩
    · obtain ⟨c, hn⟩ := Classical.not_forall.mp he
      obtain ⟨hc, hn⟩ := Classical.not_imp.mp hn
      obtain ⟨hmode, hfound, hweight⟩ := found_merged ht hc hn
      obtain ⟨hidle, hle, -⟩ := ih hmode hrest
      exact ⟨hidle, by omega, fun heq => by omega⟩

/-- **The tokens of a text weigh at most what the lexemes weigh that it was put together from**, and as much
only if no two of these run together. -/
theorem weight_scan {ts : List Token} {tail : String} {inside : Bool} (hw : ∀ t ∈ ts, t.WellFormed)
    (hg : Gap inside tail) : ∃ scanned, scan (textOf ts ++ tail) = .ok scanned ∧
      weight scanned.tokens ≤ weight ts ∧ (weight scanned.tokens = weight ts → Cut tail ts) := by
  have hfound := @Scan.found_textOf Scan.initial ts tail inside rfl hw hg
  generalize hafter : (textOf ts ++ tail).toList.foldl Scan.next Scan.initial = after at hfound
  obtain ⟨hidle, hle, hcut⟩ := hfound
  have hzero : Scan.initial.found = 0 := rfl
  rw [hzero, Nat.zero_add] at hle hcut
  have hfinish : after.finish = .ok after.flush := by
    rw [← Scan.finish_flush]
    generalize after.flush = ended at hidle
    obtain ⟨pos, start, blank, lexeme, mode, tokens⟩ := ended
    cases mode <;> first | rfl | cases hidle
  refine ⟨⟨after.flush.tokens.toList, after.flush.blank, after.flush.pos⟩, ?_, hle, fun heq => (hcut heq).1⟩
  unfold scan
  rw [hafter, hfinish]
  rfl

end EditableLisp.Token
