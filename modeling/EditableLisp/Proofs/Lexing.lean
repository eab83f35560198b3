import EditableLisp.Proofs.Tiling

/-!
# The lexical grammar

`Gap` says which texts are blank text, and `IsLexeme` which texts are tokens of a kind. The grammar is sound
and complete for scans:

* the tokens of a scan are lexemes after gaps (`wellFormed_scan`);
* lexemes after gaps that stand one after the other are the tokens of their text (`scan_textOf`), if no two
  of them run together (`Cut`). A name or number runs on into whatever does not end it, and a tilde is
  another mark before an at sign.

A scan keeps the last name, number or tilde in progress until it sees what follows; `Scan.flush` is the scan
in which that token has ended.
-/

namespace EditableLisp.Token

/-! ## The grammar -/

/-- Blank text; the flag says whether it ends inside a comment. -/
inductive Gap : Bool → String → Prop where
  | empty : Gap false ""
  | blank {g : String} {c : Char} : Gap false g → (Text.isBlank c || c == ',') = true → Gap false (g.push c)
  | semicolon {g : String} : Gap false g → Gap true (g.push ';')
  | comment {g : String} {c : Char} : Gap true g → c ≠ '\n' → Gap true (g.push c)
  | line {g : String} : Gap true g → Gap false (g.push '\n')

/-- A character starts a name or number. -/
def startsAtom (c : Char) : Bool := !endsAtom c && (markOf? c).isNone && c != '~'

/-- What was read of a token in progress, and where it leads the scan. -/
inductive Started : Mode → String → Prop where
  | tilde : Started .tilde "~"
  | atom {c : Char} : startsAtom c → Started .atom (String.singleton c)
  | extend {l : String} {c : Char} : Started .atom l → endsAtom c = false → Started .atom (l.push c)
  | quote : Started (.text "") "\""
  | char {content l : String} {c : Char} : Started (.text content) l → c ≠ '"' → c ≠ '\\' →
      Started (.text (content.push c)) (l.push c)
  | backslash {content l : String} : Started (.text content) l → Started (.escape content) (l.push '\\')
  | escaped {content l : String} {c : Char} : Started (.escape content) l →
      Started (.text (content.push (Text.unescapeChar c))) (l.push c)

/-- A text is a token of a kind. -/
inductive IsLexeme : TokenKind → String → Prop where
  | opening (b : Bracket) : IsLexeme (.opening b) (String.singleton b.opening)
  | closing (b : Bracket) : IsLexeme (.closing b) (String.singleton b.closing)
  | mark {c : Char} {style : Style} : markOf? c = some style → IsLexeme (.mark style) (String.singleton c)
  | unquote : IsLexeme (.mark .unquote) "~"
  | spliceUnquote : IsLexeme (.mark .spliceUnquote) "~@"
  | text {content l : String} : Started (.text content) l → IsLexeme (.text content) (l.push '"')
  | atom {l : String} : Started .atom l → IsLexeme .atom l

/-- A token is a lexeme after a gap. -/
structure WellFormed (t : Token) : Prop where
  gap : Gap false t.blank
  lexeme : IsLexeme t.kind t.lexeme

/-- What opens a bracket is its opening character. -/
theorem ofOpening?_opening (b : Bracket) : Bracket.ofOpening? b.opening = some b := by cases b <;> rfl

theorem ofClosing?_closing (b : Bracket) : Bracket.ofClosing? b.closing = some b := by cases b <;> rfl

/-- Every mark is a lexeme. -/
theorem isLexeme_mark {style : Style} {mark : String} (h : style.mark? = some mark) :
    IsLexeme (.mark style) mark := by
  cases style with
  | plain | program => cases h
  | quote =>
    cases h
    exact @IsLexeme.mark '\'' .quote rfl
  | quasiquote =>
    cases h
    exact @IsLexeme.mark '\x60' .quasiquote rfl
  | unquote =>
    cases h
    exact .unquote
  | spliceUnquote =>
    cases h
    exact .spliceUnquote
  | deref =>
    cases h
    exact @IsLexeme.mark '@' .deref rfl

/-- A lexeme is spelled as its kind is. -/
theorem IsLexeme.spelled {kind : TokenKind} {l : String} (h : IsLexeme kind l) : Spelled kind l := by
  cases h with
  | opening | closing => exact rfl
  | mark hm => exact mark?_of_markOf? hm
  | unquote | spliceUnquote => exact rfl
  | text | atom => trivial

/-! ## First and last characters -/

theorem head?_push {l : String} {c : Char} :
    (l.push c).toList.head? = some (l.toList.head?.getD c) := by
  rw [String.toList_push]
  cases l.toList <;> rfl

/-- Blank text starts with a character that ends names, and is not an at sign. -/
theorem Gap.head {inside : Bool} {g : String} (h : Gap inside g) {c : Char}
    (hc : g.toList.head? = some c) : endsAtom c = true ∧ c ≠ '@' := by
  induction h generalizing c with
  | empty => cases hc
  | @blank g d _ hd ih =>
    rw [head?_push] at hc
    cases hg : g.toList.head? with
    | some e =>
      rw [hg] at hc
      cases hc
      exact ih hg
    | none =>
      rw [hg] at hc
      cases hc
      have hne : d ≠ '@' := by
        rintro rfl
        revert hd
        decide
      refine ⟨?_, hne⟩
      unfold endsAtom
      rw [Bool.or_eq_true] at hd ⊢
      rcases hd with hd | hd
      · exact Or.inl hd
      · rw [eq_of_beq hd]
        exact Or.inr (by decide)
  | @semicolon g _ ih =>
    rw [head?_push] at hc
    cases hg : g.toList.head? with
    | some e =>
      rw [hg] at hc
      cases hc
      exact ih hg
    | none =>
      rw [hg] at hc
      cases hc
      decide
  | @comment g d hg' _ ih | @line g hg' ih =>
    rw [head?_push] at hc
    cases hg : g.toList.head? with
    | some e =>
      rw [hg] at hc
      cases hc
      exact ih hg
    | none =>
      -- a comment is not empty
      rw [List.head?_eq_none_iff] at hg
      cases hg' <;> simp at hg

/-- No character of a name or number ends one. -/
theorem Started.word {l : String} (h : Started .atom l) : ∀ c ∈ l.toList, endsAtom c = false := by
  generalize hm : Mode.atom = mode at h
  induction h with
  | @atom c hs =>
    unfold startsAtom at hs
    rw [Bool.and_eq_true, Bool.and_eq_true, Bool.not_eq_true'] at hs
    rw [String.toList_singleton]
    exact List.forall_mem_singleton.mpr hs.1.1
  | extend _ hc ih =>
    rw [String.toList_push]
    exact List.forall_mem_append.mpr ⟨ih rfl, List.forall_mem_singleton.mpr hc⟩
  | _ => cases hm

theorem Started.eq_tilde {l : String} (h : Started .tilde l) : l = "~" := by
  cases h
  rfl

theorem Started.ne_empty {mode : Mode} {l : String} (h : Started mode l) : l.toList ≠ [] := by
  cases h <;> simp

theorem IsLexeme.ne_empty {kind : TokenKind} {l : String} (h : IsLexeme kind l) : l.toList ≠ [] := by
  cases h with
  | atom h => exact h.ne_empty
  | _ => simp

theorem head?_append {text : String} (h : text.toList ≠ []) (after : String) :
    (text ++ after).toList.head? = text.toList.head? := by
  rw [String.toList_append, List.head?_append, List.head?_eq_some_head h, Option.some_or]

/-- A text that ends inside a name or number runs on into one that does not start by ending it. -/
def runsOn (left right : String) : Bool :=
  left.toList.getLast?.any (fun c => !endsAtom c) && right.toList.head?.any fun c => !endsAtom c

theorem runsOn_append_left {left : String} (h : left.toList ≠ []) (before right : String) :
    runsOn (before ++ left) right = runsOn left right := by
  unfold runsOn
  rw [String.toList_append, List.getLast?_append, List.getLast?_eq_some_getLast h, Option.some_or]

theorem runsOn_append_right {right : String} (h : right.toList ≠ []) (left after : String) :
    runsOn left (right ++ after) = runsOn left right := by
  unfold runsOn
  rw [head?_append h]

/-- Nothing runs on into a text that starts by ending names. -/
theorem runsOn_of_head {right : String} (h : ∀ c, right.toList.head? = some c → endsAtom c = true)
    (left : String) : runsOn left right = false := by
  unfold runsOn
  cases hr : right.toList.head? with
  | none => exact Bool.and_false _
  | some c =>
    rw [Option.any_some, h c hr]
    exact Bool.and_false _

/-- A string runs on into nothing: its last character ends names. -/
theorem IsLexeme.runsOn_text {content l : String} (h : IsLexeme (.text content) l) (right : String) :
    runsOn l right = false := by
  cases h with
  | text =>
    unfold runsOn
    rw [String.toList_push, List.getLast?_concat]
    rfl

/-- A name or number runs on into all that does not start by ending it. -/
theorem IsLexeme.runsOn_atom_iff {l : String} (h : IsLexeme .atom l) (right : String) :
    runsOn l right = false ↔ ∀ c, right.toList.head? = some c → endsAtom c = true := by
  refine ⟨fun hr c hc => ?_, fun hends => runsOn_of_head hends l⟩
  unfold runsOn at hr
  cases h with
  | atom hs =>
    have hlast := List.getLast?_eq_some_getLast hs.ne_empty
    rw [hlast, hc, Option.any_some, Option.any_some, hs.word _ (List.mem_of_getLast? hlast), Bool.not_false,
      Bool.true_and, Bool.not_eq_false'] at hr
    exact hr

/-- No text runs on into the next one; the gaps are those before the texts. -/
def apart : List String → List String → Bool
  | gaps, left :: right :: rest =>
    !runsOn left (gaps.tail.headD "" ++ right) && apart gaps.tail (right :: rest)
  | _, _ => true

theorem apart_cons {gap gap' left right : String} {gaps texts : List String} :
    apart (gap :: gap' :: gaps) (left :: right :: texts) ↔
      runsOn left (gap' ++ right) = false ∧ apart (gap' :: gaps) (right :: texts) := by
  rw [apart, Bool.and_eq_true, Bool.not_eq_true']
  exact Iff.rfl

/-- The gap after the last text does not matter. -/
theorem apart_append {gaps texts : List String} (h : gaps.length = texts.length) (more : List String) :
    apart (gaps ++ more) texts = apart gaps texts := by
  induction texts generalizing gaps with
  | nil => rfl
  | cons left rest ih =>
    match rest, gaps, h with
    | [], _, _ => rfl
    | right :: rest, gap :: gap' :: gaps, h =>
      have hrest := @ih (gap' :: gaps) (Nat.succ.inj h)
      show (_ && apart (gap' :: gaps ++ more) (right :: rest)) = _
      rw [hrest]
      rfl

/-! ## Words -/

theorem ofList_cons (c : Char) (cs : List Char) :
    String.ofList (c :: cs) = String.singleton c ++ String.ofList cs := by
  rw [String.singleton_eq_ofList, ← String.ofList_append]
  rfl

/-- Characters that end no name go on with one. -/
theorem Started.extendAll {l : String} (h : Started .atom l) {cs : List Char}
    (hcs : ∀ c ∈ cs, endsAtom c = false) : Started .atom (l ++ String.ofList cs) := by
  induction cs generalizing l with
  | nil =>
    show Started .atom (l ++ "")
    rwa [String.append_empty]
  | cons c cs ih =>
    obtain ⟨hc, hrest⟩ := List.forall_mem_cons.mp hcs
    rw [ofList_cons, ← String.append_assoc, String.append_singleton]
    exact ih (h.extend hc) hrest

/-- **A text is a word if its first character starts one and no other ends it.** -/
theorem isLexeme_atom {l : String} {c : Char} {cs : List Char} (hl : l.toList = c :: cs) (hc : startsAtom c)
    (hcs : ∀ d ∈ cs, endsAtom d = false) : IsLexeme .atom l := by
  have hsplit : l = String.singleton c ++ String.ofList cs := by
    rw [← ofList_cons, ← hl, String.ofList_toList]
  rw [hsplit]
  exact .atom ((Started.atom hc).extendAll hcs)

/-! ## Quoted strings -/

/-- A character is read from its escape. -/
theorem Started.escape {content l : String} (h : Started (.text content) l) (c : Char) :
    Started (.text (content.push c)) (l ++ String.ofList (Text.escapeChar c)) := by
  have pair : ∀ d : Char, l ++ String.ofList ['\\', d] = (l.push '\\').push d := fun d => by
    rw [← String.append_singleton, ← String.append_singleton, String.append_assoc,
      String.singleton_eq_ofList, String.singleton_eq_ofList, ← String.ofList_append]
    rfl
  have escaped : ∀ d : Char, Text.unescapeChar d = c →
      Started (.text (content.push c)) (l ++ String.ofList ['\\', d]) := by
    rintro d rfl
    rw [pair]
    exact h.backslash.escaped
  unfold Text.escapeChar
  split
  · rename_i hc
    exact escaped '"' hc.symm
  · rename_i hq
    split
    · rename_i hc
      exact escaped '\\' hc.symm
    · rename_i hb
      split
      · rename_i hc
        exact escaped 'n' hc.symm
      · split
        · rename_i hc
          exact escaped 't' hc.symm
        · rw [← String.singleton_eq_ofList, String.append_singleton]
          exact h.char hq hb

/-- The escapes of some characters are read as these characters. -/
theorem Started.escapes {content l : String} (h : Started (.text content) l) (cs : List Char) :
    Started (.text (content ++ String.ofList cs)) (l ++ String.ofList (cs.flatMap Text.escapeChar)) := by
  induction cs generalizing content l with
  | nil =>
    show Started (.text (content ++ "")) (l ++ "")
    rwa [String.append_empty, String.append_empty]
  | cons c cs ih =>
    rw [List.flatMap_cons, String.ofList_append, ← String.append_assoc, ofList_cons, ← String.append_assoc,
      String.append_singleton]
    exact ih (h.escape c)

/-- **A string in quotes is a token of the string.** -/
theorem isLexeme_quote (content : String) : IsLexeme (.text content) (Text.quote content) := by
  have h := IsLexeme.text (Started.quote.escapes content.toList)
  rw [String.empty_append, String.ofList_toList] at h
  have hquote : Text.quote content =
      ("\"" ++ String.ofList (content.toList.flatMap Text.escapeChar)).push '"' := by
    unfold Text.quote
    rw [← String.append_singleton, String.singleton_eq_ofList]
    show String.ofList ((['"'] ++ _) ++ ['"']) = _
    rw [String.ofList_append, String.ofList_append]
    rfl
  rwa [hquote]

/-! ## Reading between tokens -/

/-- A character that nothing else claims starts a name or number. -/
theorem startsAtom_of_unclaimed {c : Char} (hblank : (Text.isBlank c || c == ',') = false) (hs : c ≠ ';')
    (ho : Bracket.ofOpening? c = none) (hc : Bracket.ofClosing? c = none) (hm : markOf? c = none)
    (ht : c ≠ '~') (hq : c ≠ '"') : startsAtom c := by
  rw [Bool.or_eq_false_iff, beq_eq_false_iff_ne] at hblank
  have hopening : ∀ b : Bracket, c ≠ b.opening := by
    rintro b rfl
    rw [ofOpening?_opening] at ho
    cases ho
  have hclosing : ∀ b : Bracket, c ≠ b.closing := by
    rintro b rfl
    rw [ofClosing?_closing] at hc
    cases hc
  have hends : endsAtom c = false := by
    unfold endsAtom
    rw [hblank.1, Bool.false_or, Bool.eq_false_iff]
    intro hmem
    have hmem := List.contains_iff_mem.mp hmem
    simp only [List.mem_cons, List.not_mem_nil, or_false] at hmem
    rcases hmem with h | h | h | h | h | h | h | h | h
    · exact hopening .round h
    · exact hclosing .round h
    · exact hopening .square h
    · exact hclosing .square h
    · exact hopening .curly h
    · exact hclosing .curly h
    · exact hq h
    · exact hblank.2 h
    · exact hs h
  unfold startsAtom
  rw [hends, hm, bne_iff_ne.mpr ht]
  rfl

namespace Scan

variable {s : Scan} {c : Char}

theorem fresh_of_blank (h : (Text.isBlank c || c == ',') = true) : s.fresh c = s.skip c .blank := by
  unfold fresh
  rw [if_pos h]

theorem fresh_opening (b : Bracket) : s.fresh b.opening = s.single b.opening (.opening b) := by
  cases b <;> rfl

theorem fresh_closing (b : Bracket) : s.fresh b.closing = s.single b.closing (.closing b) := by
  cases b <;> rfl

theorem fresh_of_markOf? {style : Style} (h : markOf? c = some style) :
    s.fresh c = s.single c (.mark style) := by
  unfold markOf? at h
  split at h
  · rename_i hc
    cases h
    subst hc
    rfl
  · split at h
    · rename_i hc
      cases h
      subst hc
      rfl
    · split at h
      · rename_i hc
        cases h
        subst hc
        rfl
      · cases h

theorem fresh_of_startsAtom (h : startsAtom c) : s.fresh c = s.begin c .atom := by
  unfold startsAtom at h
  rw [Bool.and_eq_true, Bool.and_eq_true, Bool.not_eq_true', Option.isNone_iff_eq_none, bne_iff_ne] at h
  obtain ⟨⟨hends, hm⟩, ht⟩ := h
  have hne : ∀ d, endsAtom d = true → c ≠ d := by
    rintro d hd rfl
    rw [hends] at hd
    cases hd
  have hblank : ¬ (Text.isBlank c || c == ',') = true := by
    unfold endsAtom at hends
    rw [Bool.or_eq_false_iff] at hends
    rw [hends.1, Bool.false_or, beq_iff_eq]
    exact hne ',' (by decide)
  have ho : Bracket.ofOpening? c = none := by
    unfold Bracket.ofOpening?
    rw [if_neg (hne '(' (by decide)), if_neg (hne '[' (by decide)), if_neg (hne '\x7b' (by decide))]
  have hc : Bracket.ofClosing? c = none := by
    unfold Bracket.ofClosing?
    rw [if_neg (hne ')' (by decide)), if_neg (hne ']' (by decide)), if_neg (hne '\x7d' (by decide))]
  unfold fresh
  rw [if_neg hblank, if_neg (hne ';' (by decide)), ho, hc, hm]
  dsimp only
  rw [if_neg ht, if_neg (hne '"' (by decide))]

/-! ## Scans read by the grammar -/

/-- A scan is inside a comment. -/
def inComment (s : Scan) : Bool :=
  match s.mode with
  | .comment => true
  | _ => false

/-- What was read is read by the grammar: the tokens so far, the blank text, and the token in progress. -/
structure Parsed (s : Scan) : Prop where
  tokens : ∀ t ∈ s.tokens.toList, t.WellFormed
  blank : Gap s.inComment s.blank
  started : ¬ s.mode.isIdle → Started s.mode s.lexeme

namespace Parsed

theorem initial : Parsed Scan.initial := ⟨nofun, .empty, fun h => absurd rfl h⟩

/-- A token that is ended joins the others. -/
theorem emit (h : ∀ t ∈ s.tokens.toList, t.WellFormed) (hg : Gap false s.blank) {kind : TokenKind}
    (hl : IsLexeme kind s.lexeme) (stop : Nat) : (s.emit kind stop).Parsed where
  tokens t ht := by
    have ht : t ∈ (s.tokens.push ⟨kind, s.blank, s.lexeme, s.start, stop⟩).toList := ht
    rw [Array.toList_push] at ht
    rcases List.mem_append.mp ht with hold | hnew
    · exact h t hold
    · rw [List.mem_singleton.mp hnew]
      exact ⟨hg, hl⟩
  blank := .empty
  started hi := absurd rfl hi

theorem skip (h : s.Parsed) {mode : Mode} (hm : mode.isIdle)
    (hg : Gap (s.skip c mode).inComment (s.blank.push c)) : (s.skip c mode).Parsed :=
  ⟨h.tokens, hg, fun hi => absurd hm hi⟩

/-- A token is in progress after its next character, its first or a later one. -/
theorem start (h : s.Parsed) (hg : Gap false s.blank) {mode : Mode} {l : String} {start pos : Nat}
    (hs : Started mode l) (hm : mode.isIdle = false) : Parsed ⟨pos, start, s.blank, l, mode, s.tokens⟩ := by
  refine ⟨h.tokens, ?_, fun _ => hs⟩
  cases mode with
  | comment => cases hm
  | _ => exact hg

theorem single (h : s.Parsed) (hg : Gap false s.blank) {kind : TokenKind}
    (hl : IsLexeme kind (String.singleton c)) : (s.single c kind).Parsed :=
  @emit (s.begin c .blank) h.tokens hg kind hl _

theorem fresh (h : s.Parsed) (hgap : Gap false s.blank) (c : Char) : (s.fresh c).Parsed := by
  unfold Scan.fresh
  split
  · rename_i hblank
    exact h.skip rfl (.blank hgap hblank)
  · rename_i hblank
    split
    · rename_i hc
      subst hc
      exact h.skip rfl (.semicolon hgap)
    · rename_i hsemi
      cases ho : Bracket.ofOpening? c with
      | some b =>
        rw [← opening_of_ofOpening? ho]
        exact h.single hgap (.opening b)
      | none =>
        cases hc : Bracket.ofClosing? c with
        | some b =>
          rw [← closing_of_ofClosing? hc]
          exact h.single hgap (.closing b)
        | none =>
          cases hm : markOf? c with
          | some style => exact h.single hgap (.mark hm)
          | none =>
            dsimp only
            split
            · rename_i ht
              subst ht
              exact h.start hgap .tilde rfl
            · rename_i ht
              split
              · rename_i hq
                subst hq
                exact h.start hgap .quote rfl
              · rename_i hq
                have hs := startsAtom_of_unclaimed (Bool.not_eq_true _ ▸ hblank) hsemi ho hc hm ht hq
                exact h.start hgap (.atom hs) rfl

/-- **Each character is read by the grammar.** -/
theorem next (h : s.Parsed) (c : Char) : (s.next c).Parsed := by
  have hgap : ∀ inside, s.inComment = inside → Gap inside s.blank := fun _ hb => hb ▸ h.blank
  unfold Scan.next
  split
  · rename_i hm
    exact h.fresh (hgap false (by rw [inComment, hm])) c
  · rename_i hm
    have hg := hgap true (by rw [inComment, hm])
    by_cases hc : c = '\n'
    · subst hc
      exact h.skip rfl (.line hg)
    · rw [if_neg hc]
      exact h.skip rfl (.comment hg hc)
  · rename_i hm
    have hg := hgap false (by rw [inComment, hm])
    have hs := h.started (by rw [hm]; decide)
    rw [hm] at hs
    split
    · rename_i hc
      subst hc
      refine @emit (s.extend '@' .blank) h.tokens hg (.mark .spliceUnquote) ?_ _
      show IsLexeme _ (s.lexeme.push '@')
      rw [hs.eq_tilde]
      exact .spliceUnquote
    · refine (emit h.tokens hg ?_ _).fresh .empty c
      rw [hs.eq_tilde]
      exact .unquote
  · rename_i hm
    have hg := hgap false (by rw [inComment, hm])
    have hs := h.started (by rw [hm]; decide)
    rw [hm] at hs
    split
    · exact (emit h.tokens hg (.atom hs) _).fresh .empty c
    · rename_i hc
      exact h.start hg (.extend hs (Bool.not_eq_true _ ▸ hc)) rfl
  · rename_i content hm
    have hg := hgap false (by rw [inComment, hm])
    have hs := h.started (by rw [hm]; exact Bool.false_ne_true)
    rw [hm] at hs
    split
    · rename_i hc
      subst hc
      exact @emit (s.extend '"' .blank) h.tokens hg (.text content) (.text hs) _
    · rename_i hq
      split
      · rename_i hc
        subst hc
        exact h.start hg (.backslash hs) rfl
      · rename_i hb
        exact h.start hg (.char hs hq hb) rfl
  · rename_i content hm
    have hg := hgap false (by rw [inComment, hm])
    have hs := h.started (by rw [hm]; exact Bool.false_ne_true)
    rw [hm] at hs
    exact h.start hg (.escaped hs) rfl

theorem foldl_next (h : s.Parsed) (cs : List Char) : (cs.foldl Scan.next s).Parsed := by
  induction cs generalizing s with
  | nil => exact h
  | cons c cs ih => exact ih (h.next c)

theorem finish (h : s.Parsed) {s' : Scan} (e : s.finish = .ok s') : s'.Parsed := by
  have hgap : ∀ inside, s.inComment = inside → Gap inside s.blank := fun _ hb => hb ▸ h.blank
  unfold Scan.finish at e
  split at e
  · cases e
    exact h
  · cases e
    exact h
  · rename_i hm
    have hs := h.started (by rw [hm]; decide)
    rw [hm] at hs
    cases e
    refine emit h.tokens (hgap false (by rw [inComment, hm])) ?_ _
    rw [hs.eq_tilde]
    exact .unquote
  · rename_i hm
    have hs := h.started (by rw [hm]; decide)
    rw [hm] at hs
    cases e
    exact emit h.tokens (hgap false (by rw [inComment, hm])) (.atom hs) _
  · cases e
  · cases e

end Parsed

end Scan

/-- **The tokens of a text are lexemes after gaps**, and a gap, or a comment, is left at the end. -/
theorem wellFormed_scan {src : String} {scanned : Scanned} (h : scan src = .ok scanned) :
    (∀ t ∈ scanned.tokens, t.WellFormed) ∧ ∃ inside, Gap inside scanned.tail := by
  unfold scan at h
  cases hf : (src.toList.foldl Scan.next Scan.initial).finish with
  | error e =>
    rw [hf] at h
    cases h
  | ok s =>
    rw [hf] at h
    have hs := (Scan.Parsed.initial.foldl_next src.toList).finish hf
    cases h
    exact ⟨hs.tokens, _, hs.blank⟩

/-! ## Ends of tokens -/

/-- A character does not go on with a token. -/
def EndsBefore (kind : TokenKind) (c : Char) : Prop :=
  (kind = .atom → endsAtom c = true) ∧ (kind = .mark .unquote → c ≠ '@')

@[simp] theorem endsBefore_opening (b : Bracket) (c : Char) : EndsBefore (.opening b) c := by
  simp [EndsBefore]

@[simp] theorem endsBefore_closing (b : Bracket) (c : Char) : EndsBefore (.closing b) c := by
  simp [EndsBefore]

@[simp] theorem endsBefore_text (content : String) (c : Char) : EndsBefore (.text content) c := by
  simp [EndsBefore]

@[simp] theorem endsBefore_mark (style : Style) (c : Char) :
    EndsBefore (.mark style) c ↔ (style = .unquote → c ≠ '@') := by
  simp [EndsBefore]

@[simp] theorem endsBefore_atom (c : Char) : EndsBefore .atom c ↔ endsAtom c = true := by
  simp [EndsBefore]

/-- No token goes on with the text after it. -/
def Cut (tail : String) : List Token → Prop
  | [] => True
  | t :: rest =>
    (∀ c, (textOf rest ++ tail).toList.head? = some c → EndsBefore t.kind c) ∧ Cut tail rest

theorem cut_append {tail : String} {ts us : List Token} :
    Cut tail (ts ++ us) ↔ Cut (textOf us ++ tail) ts ∧ Cut tail us := by
  induction ts with
  | nil => exact ⟨fun h => ⟨trivial, h⟩, fun h => h.2⟩
  | cons t ts ih =>
    rw [List.cons_append, Cut, Cut, ih, textOf_append, String.append_assoc, and_assoc]

namespace Scan

/-- The scan in which the name, number or tilde in progress has ended. -/
def flush (s : Scan) : Scan :=
  match s.mode with
  | .tilde => s.emit (.mark .unquote) s.pos
  | .atom => s.emit .atom s.pos
  | _ => s

variable {s : Scan}

/-- A character ends what is in progress. -/
def EndedBy (s : Scan) (c : Char) : Prop :=
  (s.mode = .atom → endsAtom c = true) ∧ (s.mode = .tilde → c ≠ '@')

theorem next_flush {c : Char} (h : s.EndedBy c) : s.flush.next c = s.next c := by
  obtain ⟨pos, start, blank, lexeme, mode, tokens⟩ := s
  cases mode with
  | tilde => exact (if_neg (h.2 rfl)).symm
  | atom => exact (if_pos (h.1 rfl)).symm
  | _ => rfl

theorem flush_flush (s : Scan) : s.flush.flush = s.flush := by
  obtain ⟨pos, start, blank, lexeme, mode, tokens⟩ := s
  cases mode <;> rfl

theorem finish_flush (s : Scan) : s.flush.finish = s.finish := by
  obtain ⟨pos, start, blank, lexeme, mode, tokens⟩ := s
  cases mode <;> rfl

/-- What is read after a token does not depend on whether it had ended. -/
theorem flush_foldl_next {cs : List Char} (h : ∀ c, cs.head? = some c → s.EndedBy c) :
    (cs.foldl next s.flush).flush = (cs.foldl next s).flush := by
  cases cs with
  | nil => exact s.flush_flush
  | cons c cs =>
    rw [List.foldl_cons, List.foldl_cons, next_flush (h c rfl)]

end Scan

/-! ## Completeness -/

variable {s : Scan}

theorem Scan.skip_after {pos start : Nat} {blank g lexeme : String} {c : Char} {mode mode' : Mode}
    {tokens : Array Token} :
    Scan.skip ⟨pos + g.utf8ByteSize, start, blank ++ g, lexeme, mode, tokens⟩ c mode' =
      ⟨pos + (g.push c).utf8ByteSize, start, blank ++ g.push c, lexeme, mode', tokens⟩ := by
  rw [String.utf8ByteSize_push, ← Nat.add_assoc, ← String.append_singleton, ← String.append_assoc,
    String.append_singleton]
  rfl

theorem Scan.extend_after {pos start : Nat} {blank l : String} {c : Char} {mode mode' : Mode}
    {tokens : Array Token} :
    Scan.extend ⟨pos + l.utf8ByteSize, start, blank, l, mode, tokens⟩ c mode' =
      ⟨pos + (l.push c).utf8ByteSize, start, blank, l.push c, mode', tokens⟩ := by
  rw [String.utf8ByteSize_push, ← Nat.add_assoc]
  rfl

/-- A gap is read as blank text. -/
theorem Gap.foldl_next {inside : Bool} {g : String} (h : Gap inside g) (hm : s.mode = .blank) :
    g.toList.foldl Scan.next s = ⟨s.pos + g.utf8ByteSize, s.start, s.blank ++ g, s.lexeme,
      if inside then .comment else .blank, s.tokens⟩ := by
  obtain ⟨pos, start, blank, lexeme, mode, tokens⟩ := s
  cases hm
  induction h with
  | empty =>
    show Scan.mk pos start blank lexeme .blank tokens = _
    rw [String.append_empty]
    rfl
  | blank _ hc ih =>
    rw [String.toList_push, List.foldl_append, ih]
    exact (Scan.fresh_of_blank hc).trans Scan.skip_after
  | semicolon _ ih =>
    rw [String.toList_push, List.foldl_append, ih]
    exact Scan.skip_after
  | comment _ hc ih =>
    rw [String.toList_push, List.foldl_append, ih]
    exact (congrArg _ (if_neg hc)).trans Scan.skip_after
  | line _ ih =>
    rw [String.toList_push, List.foldl_append, ih]
    exact Scan.skip_after

/-- A token in progress is read as such. -/
theorem Started.foldl_next {mode : Mode} {l : String} (h : Started mode l) (hm : s.mode = .blank) :
    l.toList.foldl Scan.next s = ⟨s.pos + l.utf8ByteSize, s.pos, s.blank, l, mode, s.tokens⟩ := by
  obtain ⟨pos, start, blank, lexeme, mode, tokens⟩ := s
  cases hm
  induction h with
  | tilde => rfl
  | @atom c hc =>
    rw [String.toList_singleton, String.utf8ByteSize_singleton]
    exact Scan.fresh_of_startsAtom hc
  | extend _ hc ih =>
    rw [String.toList_push, List.foldl_append, ih]
    exact (if_neg (Bool.eq_false_iff.mp hc)).trans Scan.extend_after
  | quote => rfl
  | char _ hq hb ih =>
    rw [String.toList_push, List.foldl_append, ih]
    exact ((if_neg hq).trans (if_neg hb)).trans Scan.extend_after
  | backslash _ ih =>
    rw [String.toList_push, List.foldl_append, ih]
    exact Scan.extend_after
  | escaped _ ih =>
    rw [String.toList_push, List.foldl_append, ih]
    exact Scan.extend_after

/-- A scan between tokens with one token more. -/
def Scan.withToken (s : Scan) (kind : TokenKind) (l : String) : Scan :=
  Scan.emit ⟨s.pos + l.utf8ByteSize, s.pos, s.blank, l, .blank, s.tokens⟩ kind (s.pos + l.utf8ByteSize)

theorem Scan.single_eq_withToken (s : Scan) (c : Char) (kind : TokenKind) :
    s.single c kind = s.withToken kind (String.singleton c) := by
  unfold withToken
  rw [String.utf8ByteSize_singleton]
  rfl

/-- Where a scan is after a token of a kind. -/
def lastMode : TokenKind → Mode
  | .atom => .atom
  | .mark .unquote => .tilde
  | _ => .blank

theorem endedBy_iff {kind : TokenKind} {c : Char} (h : s.mode = lastMode kind) :
    s.EndedBy c ↔ EndsBefore kind c := by
  unfold Scan.EndedBy EndsBefore
  rw [h]
  cases kind with
  | atom => exact ⟨fun hc => ⟨fun _ => hc.1 rfl, nofun⟩, fun hc => ⟨fun _ => hc.1 rfl, nofun⟩⟩
  | mark style =>
    cases style with
    | unquote => exact ⟨fun hc => ⟨nofun, fun _ => hc.2 rfl⟩, fun hc => ⟨nofun, fun _ => hc.2 rfl⟩⟩
    | _ => exact ⟨fun _ => ⟨nofun, nofun⟩, fun _ => ⟨nofun, nofun⟩⟩
  | _ => exact ⟨fun _ => ⟨nofun, nofun⟩, fun _ => ⟨nofun, nofun⟩⟩

theorem lastMode_of_markOf? {c : Char} {style : Style} (h : markOf? c = some style) :
    lastMode (.mark style) = .blank := by
  cases style with
  | unquote =>
    unfold markOf? at h
    split at h
    · cases h
    · split at h
      · cases h
      · split at h <;> cases h
  | _ => rfl

/-- A lexeme is read as a token of its kind. -/
theorem IsLexeme.foldl_next {kind : TokenKind} {l : String} (h : IsLexeme kind l) (hm : s.mode = .blank) :
    (l.toList.foldl Scan.next s).flush = s.withToken kind l ∧
      (l.toList.foldl Scan.next s).mode = lastMode kind := by
  have single : ∀ {c : Char} {kind : TokenKind}, s.fresh c = s.single c kind → lastMode kind = .blank →
      (([c] : List Char).foldl Scan.next s).flush = s.withToken kind (String.singleton c) ∧
        (([c] : List Char).foldl Scan.next s).mode = lastMode kind := by
    intro c kind hfresh hlast
    have hnext : s.next c = s.single c kind := by
      unfold Scan.next
      rw [hm]
      exact hfresh
    rw [List.foldl_cons, List.foldl_nil, hnext]
    exact ⟨s.single_eq_withToken c kind, hlast.symm⟩
  cases h with
  | opening b =>
    rw [String.toList_singleton]
    exact single (Scan.fresh_opening b) rfl
  | closing b =>
    rw [String.toList_singleton]
    exact single (Scan.fresh_closing b) rfl
  | mark h =>
    rw [String.toList_singleton]
    exact single (Scan.fresh_of_markOf? h) (lastMode_of_markOf? h)
  | unquote =>
    rw [Started.tilde.foldl_next hm]
    exact ⟨rfl, rfl⟩
  | spliceUnquote =>
    have htilde := Started.tilde.foldl_next hm
    have hsplice : "~@".toList.foldl Scan.next s = s.withToken (.mark .spliceUnquote) "~@" := by
      show Scan.next ("~".toList.foldl Scan.next s) '@' = _
      rw [htilde]
      rfl
    rw [hsplice]
    exact ⟨rfl, rfl⟩
  | @text content l h =>
    have htext : (l.push '"').toList.foldl Scan.next s = s.withToken (.text content) (l.push '"') := by
      rw [String.toList_push, List.foldl_append, h.foldl_next hm]
      show Scan.emit (Scan.extend _ '"' .blank) _ _ = _
      rw [Scan.extend_after]
      rfl
    rw [htext]
    exact ⟨rfl, rfl⟩
  | atom h =>
    rw [h.foldl_next hm]
    exact ⟨rfl, rfl⟩

/-- A scan has these tokens once the one in progress has ended, and nothing more. -/
def Scan.Holds (s : Scan) (ts : List Token) (pos : Nat) : Prop :=
  ∃ start, s.flush = ⟨pos, start, "", "", .blank, ts.toArray⟩

/-- A token is added to those that a scan has. -/
theorem Scan.Holds.token {done : List Token} {pos : Nat} (h : s.Holds done pos) {t : Token} (ht : t.WellFormed)
    (hstart : t.start = pos + t.blank.utf8ByteSize) (hstop : t.stop = t.start + t.lexeme.utf8ByteSize) :
    ((t.blank ++ t.lexeme).toList.foldl Scan.next s.flush).Holds (done ++ [t]) t.stop ∧
      ∀ c, EndsBefore t.kind c → ((t.blank ++ t.lexeme).toList.foldl Scan.next s.flush).EndedBy c := by
  obtain ⟨start, hs⟩ := h
  rw [hs, String.toList_append, List.foldl_append, ht.gap.foldl_next rfl]
  obtain ⟨hflush, hmode⟩ := ht.lexeme.foldl_next (s := ⟨pos + t.blank.utf8ByteSize, start, "" ++ t.blank, "",
    if false then .comment else .blank, done.toArray⟩) rfl
  refine ⟨⟨t.start, hflush.trans ?_⟩, fun c hc => (endedBy_iff hmode).mpr hc⟩
  unfold Scan.withToken Scan.emit
  dsimp only
  rw [String.empty_append, ← hstart, ← hstop, List.push_toArray]

/-- Tokens that stand one after the other are read one after the other. -/
theorem Scan.Holds.textOf {ts done : List Token} {pos : Nat} {tail : String} {inside : Bool}
    (h : s.Holds done pos) (hp : Placed pos ts) (hw : ∀ t ∈ ts, t.WellFormed) (hc : Cut tail ts)
    (hg : Gap inside tail) (he : ∀ c, (textOf ts ++ tail).toList.head? = some c → s.EndedBy c) :
    ∃ pos start, ((Token.textOf ts ++ tail).toList.foldl Scan.next s).flush =
      ⟨pos, start, tail, "", if inside then .comment else .blank, (done ++ ts).toArray⟩ := by
  induction ts generalizing s done pos with
  | nil =>
    obtain ⟨start, hs⟩ := h
    rw [← flush_foldl_next he, hs, Token.textOf, String.empty_append, hg.foldl_next rfl, List.append_nil]
    refine ⟨pos + tail.utf8ByteSize, start, ?_⟩
    rw [String.empty_append]
    cases inside <;> rfl
  | cons t rest ih =>
    obtain ⟨hstart, hstop, hp⟩ := hp
    obtain ⟨ht, hw⟩ := List.forall_mem_cons.mp hw
    obtain ⟨hhead, hc⟩ := hc
    obtain ⟨hholds, hended⟩ := h.token ht hstart hstop
    obtain ⟨pos', start', hrest⟩ := ih hholds hp hw hc fun c hm => hended c (hhead c hm)
    have htext : Token.textOf (t :: rest) ++ tail = (t.blank ++ t.lexeme) ++ (Token.textOf rest ++ tail) :=
      String.append_assoc
    refine ⟨pos', start', ?_⟩
    rw [← flush_foldl_next he, htext, String.toList_append, List.foldl_append, hrest, List.append_assoc,
      List.singleton_append]

/-- **Lexemes after gaps that do not run together are the tokens of their text**, and a gap after them is the
blank text that is left. -/
theorem scan_textOf {ts : List Token} {tail : String} {inside : Bool} (hp : Placed 0 ts)
    (hw : ∀ t ∈ ts, t.WellFormed) (hc : Cut tail ts) (hg : Gap inside tail) :
    ∃ size, scan (textOf ts ++ tail) = .ok ⟨ts, tail, size⟩ := by
  have hinitial : Scan.initial.Holds [] 0 := ⟨0, rfl⟩
  obtain ⟨pos, start, hflush⟩ := hinitial.textOf hp hw hc hg fun c _ => ⟨nofun, nofun⟩
  refine ⟨pos, ?_⟩
  unfold scan
  rw [← Scan.finish_flush, hflush]
  cases inside <;> rfl

end EditableLisp.Token
