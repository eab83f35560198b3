import EditableLisp.Source.Token

/-!
# Tokens tile the source

The blanks and lexemes of the tokens of a text, and the blank text after the last of them, are the text
(`textOf_scan`), and every token starts and stops where it stands in the text (`placed_scan`). Brackets and
marks are spelled in one way only (`spelled_scan`).

`Scan.Covers s read` is the invariant of a scan: the tokens so far, the blank text, and the token in
progress make up what was read. Each operation on scans has one lemma, and `Covers.next` puts them together.
-/

namespace EditableLisp.Token

/-! ## Runs of tokens -/

/-- The source text of some tokens, each with the blank text before it. -/
def textOf : List Token → String
  | [] => ""
  | t :: rest => t.blank ++ t.lexeme ++ textOf rest

theorem textOf_append (ts us : List Token) : textOf (ts ++ us) = textOf ts ++ textOf us := by
  induction ts with
  | nil => exact String.empty_append.symm
  | cons t ts ih => rw [List.cons_append, textOf, textOf, ih, ← String.append_assoc]

/-- Tokens stand one after the other from a byte offset on. -/
def Placed (pos : Nat) : List Token → Prop
  | [] => True
  | t :: rest =>
    t.start = pos + t.blank.utf8ByteSize ∧ t.stop = t.start + t.lexeme.utf8ByteSize ∧ Placed t.stop rest

/-- Tokens that stand one after the other do so on both sides of each place. -/
theorem placed_append {pos : Nat} {ts us : List Token} :
    Placed pos (ts ++ us) ↔ Placed pos ts ∧ Placed (pos + (textOf ts).utf8ByteSize) us := by
  induction ts generalizing pos with
  | nil => simp [Placed, textOf]
  | cons t ts ih =>
    rw [List.cons_append, Placed, Placed, ih, and_assoc, and_assoc]
    refine and_congr_right fun hstart => and_congr_right fun hstop => and_congr_right fun _ => ?_
    have hpos : t.stop + (textOf ts).utf8ByteSize = pos + (textOf (t :: ts)).utf8ByteSize := by
      rw [textOf, String.utf8ByteSize_append, String.utf8ByteSize_append]
      omega
    rw [hpos]

/-- A bracket or a mark is spelled as such. -/
def Spelled (kind : TokenKind) (lexeme : String) : Prop :=
  match kind with
  | .opening b => lexeme = String.singleton b.opening
  | .closing b => lexeme = String.singleton b.closing
  | .mark style => style.mark? = some lexeme
  | _ => True

theorem opening_of_ofOpening? {c : Char} {b : Bracket} (h : Bracket.ofOpening? c = some b) :
    b.opening = c := by
  unfold Bracket.ofOpening? at h
  split at h
  · cases h; rename_i hc; exact hc.symm
  · split at h
    · cases h; rename_i hc; exact hc.symm
    · split at h
      · cases h; rename_i hc; exact hc.symm
      · cases h

theorem closing_of_ofClosing? {c : Char} {b : Bracket} (h : Bracket.ofClosing? c = some b) :
    b.closing = c := by
  unfold Bracket.ofClosing? at h
  split at h
  · cases h; rename_i hc; exact hc.symm
  · split at h
    · cases h; rename_i hc; exact hc.symm
    · split at h
      · cases h; rename_i hc; exact hc.symm
      · cases h

theorem mark?_of_markOf? {c : Char} {style : Style} (h : markOf? c = some style) :
    style.mark? = some (String.singleton c) := by
  unfold markOf? at h
  split at h
  · cases h; rename_i hc; subst hc; rfl
  · split at h
    · cases h; rename_i hc; subst hc; rfl
    · split at h
      · cases h; rename_i hc; subst hc; rfl
      · cases h

/-! ## The invariant of a scan -/

/-- A scan is between tokens. -/
def Mode.isIdle : Mode → Bool
  | .blank => true
  | .comment => true
  | _ => false

/-- A scan holds what was read: its tokens, the blank text and the token in progress. -/
structure Scan.Covers (s : Scan) (read : String) : Prop where
  text : textOf s.tokens.toList ++ s.blank ++ s.lexeme = read
  pos : s.pos = read.utf8ByteSize
  placed : Placed 0 s.tokens.toList
  idle : s.mode.isIdle → s.lexeme = ""
  start : ¬ s.mode.isIdle → s.start + s.lexeme.utf8ByteSize = s.pos
  spelled : ∀ t ∈ s.tokens.toList, Spelled t.kind t.lexeme
  tilde : s.mode = .tilde → s.lexeme = "~"

namespace Scan.Covers

variable {s : Scan} {read : String}

theorem initial : Covers Scan.initial "" where
  text := rfl
  pos := rfl
  placed := trivial
  idle _ := rfl
  start h := absurd rfl h
  spelled := nofun
  tilde := nofun

theorem skip (h : s.Covers read) (hl : s.lexeme = "") (c : Char) {mode : Mode} (hm : mode.isIdle) :
    (s.skip c mode).Covers (read.push c) where
  text := by
    show textOf s.tokens.toList ++ s.blank.push c ++ s.lexeme = read.push c
    rw [← h.text, hl, String.append_empty, String.append_empty, ← String.append_singleton,
      ← String.append_singleton, String.append_assoc]
  pos := by
    show s.pos + c.utf8Size = _
    rw [String.utf8ByteSize_push, h.pos]
  placed := h.placed
  idle _ := hl
  start hi := absurd hm hi
  spelled := h.spelled
  tilde ht := by
    have ht' : mode = .tilde := ht
    rw [ht'] at hm
    cases hm

theorem begin (h : s.Covers read) (hl : s.lexeme = "") (c : Char) {mode : Mode}
    (hm : ¬ mode.isIdle) (ht : mode = .tilde → c = '~') : (s.begin c mode).Covers (read.push c) where
  text := by
    show textOf s.tokens.toList ++ s.blank ++ String.singleton c = read.push c
    rw [← h.text, hl, String.append_empty, String.append_singleton]
  pos := by
    show s.pos + c.utf8Size = _
    rw [String.utf8ByteSize_push, h.pos]
  placed := h.placed
  idle hi := absurd hi hm
  start _ := by
    show s.pos + (String.singleton c).utf8ByteSize = s.pos + c.utf8Size
    rw [String.utf8ByteSize_singleton]
  spelled := h.spelled
  tilde hm := by
    show String.singleton c = "~"
    rw [ht hm]
    rfl

theorem extend (h : s.Covers read) (hi : ¬ s.mode.isIdle) (c : Char) {mode : Mode}
    (hm : ¬ mode.isIdle) (ht : mode ≠ .tilde) : (s.extend c mode).Covers (read.push c) where
  text := by
    show textOf s.tokens.toList ++ s.blank ++ s.lexeme.push c = read.push c
    rw [← h.text, ← String.append_singleton, ← String.append_singleton, ← String.append_assoc]
  pos := by
    show s.pos + c.utf8Size = _
    rw [String.utf8ByteSize_push, h.pos]
  placed := h.placed
  idle hi := absurd hi hm
  start _ := by
    show s.start + (s.lexeme.push c).utf8ByteSize = s.pos + c.utf8Size
    rw [String.utf8ByteSize_push, ← Nat.add_assoc, h.start hi]
  spelled := h.spelled
  tilde hm := absurd hm ht

/-- A token ends where its last character was read, whatever is made of the scan's mode. -/
theorem emit (h : s.Covers read) (hs : s.start + s.lexeme.utf8ByteSize = s.pos) {kind : TokenKind}
    (hk : Spelled kind s.lexeme) : (s.emit kind s.pos).Covers read where
  text := by
    show textOf (s.tokens.push _).toList ++ "" ++ "" = read
    rw [Array.toList_push, textOf_append, String.append_empty, String.append_empty, textOf, textOf,
      String.append_empty, ← String.append_assoc, h.text]
  pos := h.pos
  placed := by
    show Placed 0 (s.tokens.push _).toList
    rw [Array.toList_push, placed_append]
    refine ⟨h.placed, ?_, ?_, trivial⟩
    · show s.start = 0 + _ + s.blank.utf8ByteSize
      have hsize : s.pos = (textOf s.tokens.toList).utf8ByteSize + s.blank.utf8ByteSize +
          s.lexeme.utf8ByteSize := by
        rw [h.pos, ← h.text, String.utf8ByteSize_append, String.utf8ByteSize_append]
      omega
    · exact hs.symm
  idle _ := rfl
  start hi := absurd rfl hi
  spelled t ht := by
    have ht' : t ∈ (s.tokens.push ⟨kind, s.blank, s.lexeme, s.start, s.pos⟩).toList := ht
    rw [Array.toList_push] at ht'
    rcases List.mem_append.mp ht' with hold | hnew
    · exact h.spelled t hold
    · rw [List.mem_singleton] at hnew
      rw [hnew]
      exact hk
  tilde := nofun

theorem single (h : s.Covers read) (hl : s.lexeme = "") (c : Char) {kind : TokenKind}
    (hk : Spelled kind (String.singleton c)) : (s.single c kind).Covers (read.push c) := by
  have hb : (s.begin c .atom).Covers (read.push c) := h.begin hl c (by decide) nofun
  exact hb.emit (hb.start Bool.false_ne_true) hk

theorem fresh (h : s.Covers read) (hl : s.lexeme = "") (c : Char) :
    (s.fresh c).Covers (read.push c) := by
  unfold Scan.fresh
  split
  · exact h.skip hl c rfl
  · split
    · exact h.skip hl c rfl
    · cases ho : Bracket.ofOpening? c with
      | some b =>
        have hk : Spelled (.opening b) (String.singleton c) := by
          rw [← opening_of_ofOpening? ho]
          exact rfl
        exact h.single hl c hk
      | none =>
        cases hc : Bracket.ofClosing? c with
        | some b =>
          have hk : Spelled (.closing b) (String.singleton c) := by
            rw [← closing_of_ofClosing? hc]
            exact rfl
          exact h.single hl c hk
        | none =>
          cases hs : markOf? c with
          | some style => exact h.single hl c (mark?_of_markOf? hs)
          | none =>
            dsimp only
            split
            · rename_i ht
              exact h.begin hl c (by decide) fun _ => ht
            · split
              · exact h.begin hl c Bool.false_ne_true nofun
              · exact h.begin hl c (by decide) nofun

/-- A scan that covers what was read covers the next character as well. -/
theorem next (h : s.Covers read) (c : Char) : (s.next c).Covers (read.push c) := by
  unfold Scan.next
  split
  · rename_i hm
    exact h.fresh (h.idle (by rw [hm]; rfl)) c
  · rename_i hm
    refine h.skip (h.idle (by rw [hm]; rfl)) c ?_
    split <;> rfl
  · rename_i hm
    have hi : ¬ s.mode.isIdle := by rw [hm]; decide
    have hl : s.lexeme = "~" := h.tilde hm
    split
    · rename_i hc
      have he : (s.extend c .atom).Covers (read.push c) := h.extend hi c (by decide) nofun
      have hk : Spelled (.mark .spliceUnquote) (s.extend c .atom).lexeme := by
        show some "~@" = some (s.lexeme.push c)
        rw [hl, hc]
        rfl
      exact he.emit (he.start Bool.false_ne_true) hk
    · have hk : Spelled (.mark .unquote) s.lexeme := by
        rw [hl]
        exact rfl
      exact (h.emit (h.start hi) hk).fresh rfl c
  · rename_i hm
    have hi : ¬ s.mode.isIdle := by rw [hm]; decide
    split
    · have hk : Spelled .atom s.lexeme := trivial
      exact (h.emit (h.start hi) hk).fresh rfl c
    · exact h.extend hi c (by decide) nofun
  · rename_i content hm
    have hi : ¬ s.mode.isIdle := by rw [hm]; exact Bool.false_ne_true
    split
    · have he : (s.extend c .atom).Covers (read.push c) := h.extend hi c (by decide) nofun
      have hk : Spelled (.text content) (s.extend c .atom).lexeme := trivial
      exact he.emit (he.start Bool.false_ne_true) hk
    · split
      · exact h.extend hi c Bool.false_ne_true nofun
      · exact h.extend hi c Bool.false_ne_true nofun
  · rename_i content hm
    have hi : ¬ s.mode.isIdle := by rw [hm]; exact Bool.false_ne_true
    exact h.extend hi c Bool.false_ne_true nofun

theorem foldl_next (h : s.Covers read) (cs : List Char) :
    (cs.foldl Scan.next s).Covers (read ++ String.ofList cs) := by
  induction cs generalizing s read with
  | nil => simpa using h
  | cons c cs ih =>
    have hc := ih (h.next c)
    rwa [← String.append_singleton, String.append_assoc, String.singleton_eq_ofList,
      ← String.ofList_append] at hc

/-- At the end of a text nothing is in progress. -/
theorem finish {s' : Scan} (h : s.Covers read) (e : s.finish = .ok s') :
    s'.Covers read ∧ s'.lexeme = "" := by
  unfold Scan.finish at e
  split at e
  · rename_i hm
    cases e
    exact ⟨h, h.idle (by rw [hm]; rfl)⟩
  · rename_i hm
    cases e
    exact ⟨h, h.idle (by rw [hm]; rfl)⟩
  · rename_i hm
    cases e
    have hk : Spelled (.mark .unquote) s.lexeme := by
      rw [h.tilde hm]
      exact rfl
    exact ⟨h.emit (h.start (by rw [hm]; decide)) hk, rfl⟩
  · rename_i hm
    cases e
    have hk : Spelled .atom s.lexeme := trivial
    exact ⟨h.emit (h.start (by rw [hm]; decide)) hk, rfl⟩
  · cases e
  · cases e

end Scan.Covers

/-! ## Scans of texts -/

variable {src : String} {scanned : Scanned}

theorem covers_scan (h : scan src = .ok scanned) :
    ∃ s : Scan, s.Covers src ∧ s.lexeme = "" ∧ scanned = ⟨s.tokens.toList, s.blank, s.pos⟩ := by
  unfold scan at h
  cases hf : (src.toList.foldl Scan.next Scan.initial).finish with
  | error e =>
    rw [hf] at h
    cases h
  | ok s =>
    rw [hf] at h
    have hc := Scan.Covers.initial.foldl_next src.toList
    rw [String.empty_append, String.ofList_toList] at hc
    obtain ⟨hs, hl⟩ := hc.finish hf
    cases h
    exact ⟨s, hs, hl, rfl⟩

/-- **The tokens of a text and the blank text after them are the text.** -/
theorem textOf_scan (h : scan src = .ok scanned) : textOf scanned.tokens ++ scanned.tail = src := by
  obtain ⟨s, hs, hl, rfl⟩ := covers_scan h
  have := hs.text
  rwa [hl, String.append_empty] at this

/-- **Every token starts and stops where it stands in the text.** -/
theorem placed_scan (h : scan src = .ok scanned) : Placed 0 scanned.tokens := by
  obtain ⟨s, hs, _, rfl⟩ := covers_scan h
  exact hs.placed

theorem spelled_scan (h : scan src = .ok scanned) : ∀ t ∈ scanned.tokens, Spelled t.kind t.lexeme := by
  obtain ⟨s, hs, _, rfl⟩ := covers_scan h
  exact hs.spelled

end EditableLisp.Token
