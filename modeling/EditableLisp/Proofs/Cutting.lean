import EditableLisp.Proofs.Spans
import EditableLisp.Source.Reader

/-!
# Reading by slices

The layout of a program can be cut out of its source: the gap before a form goes from where the last thing in
the collection around it stopped to where the form starts, and the spelling of a number or string is the slice
of its span. `Cutting.read` reads a text in this way. What waits for a form is kept by its byte offsets, and a
cut that does not fall on boundaries of the source, or is not in order, is the end of the whole reading
(`Cutting.cut`).

No cut fails, whether the text can be read or not: the reader by slices gives the programs and the errors of the
reader by tokens (`Cutting.read_eq`). `Agrees` is the invariant, with a lemma for a form that finds its place, a
token, and a row of tokens. The place of every error is a boundary of the source
(**`spans_of_source`**, with what the tokens of the source do).
-/

namespace EditableLisp

namespace Cutting

/-! ## The reader by slices -/

/-- The result of a reading, or nothing if a cut failed. -/
abbrev Sliced := ExceptT ReadError Option

/-- Cuts a text out of the source. -/
def cut (src : String) (start stop : Nat) : Sliced String := ExceptT.mk ((slice? src start stop).map .ok)

/-- What waits for a form, with the offset where it starts: a mark, with the offset where it stops, or a
collection, with the offset where the last thing in it stopped. -/
inductive Opened where
  | mark (style : Style) (start stop : Nat)
  | collection (bracket : Bracket) (start stop : Nat) (gaps : List String) (forms : List Form)

/-- What was read so far; `stop` is where the last form outside of all collections stopped. -/
structure State where
  opened : List Opened
  stop : Nat
  gaps : List String
  forms : List Form

/-- Nothing was read. -/
def initial : State := ⟨[], 0, [], []⟩

/-- A number or string with its spelling. -/
def spelled (text : String) : Form → Form
  | .num x _ => .num x text
  | .text content _ => .text content text
  | form => form

/-- Puts a finished form where it belongs, with the gap before it and its spelling. -/
def place (src : String) (s : State) (form : Form) (start stop : Nat) : List Opened → Sliced State
  | [] => do
    let gap ← cut src s.stop start
    let text ← cut src start stop
    return ⟨[], stop, gap :: s.gaps, spelled text form :: s.forms⟩
  | .mark style start' stop' :: rest => do
    let gap ← cut src stop' start
    let text ← cut src start stop
    place src s (.marked style gap (spelled text form)) start' stop rest
  | .collection bracket start' stop' gaps forms :: rest => do
    let gap ← cut src stop' start
    let text ← cut src start stop
    return { s with
      opened := .collection bracket start' stop (gap :: gaps) (spelled text form :: forms) :: rest }

/-- The form of a name or number; the name of a keyword is cut off the colon. -/
def word (src : String) (t : Token) : Sliced Form :=
  if t.lexeme.toList.head? = some ':' then do
    let name ← cut src (t.start + 1) t.stop
    if name = "" then throw ⟨.emptyKeyword, t.start⟩ else return .keyword name
  else
    match Form.ofAtom t.lexeme with
    | .ok form => return form
    | .error cause => throw ⟨cause, t.start⟩

/-- Takes one token. -/
def shift (src : String) (s : State) (t : Token) : Sliced State :=
  match t.kind with
  | .opening bracket => return { s with opened := .collection bracket t.start t.stop [] [] :: s.opened }
  | .mark style => return { s with opened := .mark style t.start t.stop :: s.opened }
  | .text content => place src s (.text content "") t.start t.stop s.opened
  | .atom => do place src s (← word src t) t.start t.stop s.opened
  | .closing bracket =>
    match s.opened with
    | .collection bracket' start stop gaps forms :: rest =>
      if bracket = bracket' then do
        let gap ← cut src stop t.start
        match Assembly.close bracket (gap :: gaps).reverse forms.reverse with
        | .ok form => place src s form start t.stop rest
        | .error cause => throw ⟨cause, start⟩
      else throw ⟨.wrongClose bracket'.closing bracket.closing, t.start⟩
    | _ => throw ⟨.strayClose bracket.closing, t.start⟩

/-- The program that was read, if nothing is open. -/
def finish (src : String) (s : State) : Sliced Program :=
  match s.opened with
  | [] => do
    let tail ← cut src s.stop src.utf8ByteSize
    return ⟨(tail :: s.gaps).reverse, s.forms.reverse⟩
  | .mark .. :: _ => throw ⟨.endOfInput, src.utf8ByteSize⟩
  | .collection bracket start .. :: _ => throw ⟨.unclosed bracket.closing, start⟩

/-- Reads a text. -/
def read (src : String) : Sliced Program :=
  match Token.scan src with
  | .error e => throw e
  | .ok scanned => do finish src (← scanned.tokens.foldlM (shift src) initial)

/-! ## Agreement with the reader by tokens -/

theorem cut_of_isSlice {src text : String} {start stop : Nat} (h : IsSlice src start stop text) :
    cut src start stop = pure text := by
  unfold cut
  rw [slice?_eq_some_iff.mpr h]
  rfl

/-- What is open in the two readers: up to `pos` the source was read, and the blank text before each thing
that waits goes back to where the last thing around it stopped. -/
inductive Agrees (src : String) : Nat → List Opened → Nat → List EditableLisp.Opened → Prop where
  | outside {pos : Nat} : Agrees src pos [] pos []
  | mark {pos₀ pos start stop : Nat} {opened : List Opened} {opened' : List EditableLisp.Opened}
      {style : Style} {blank : String} : Agrees src pos₀ opened stop opened' → IsSlice src pos₀ start blank →
      start ≤ pos → Agrees src pos (.mark style start pos :: opened) stop (.mark style blank :: opened')
  | collection {pos₀ pos start stop : Nat} {opened : List Opened} {opened' : List EditableLisp.Opened}
      {bracket : Bracket} {blank : String} {gaps : List String} {forms : List Form} :
      Agrees src pos₀ opened stop opened' → IsSlice src pos₀ start blank → start ≤ pos →
      Agrees src pos (.collection bracket start pos gaps forms :: opened) stop
        (.collection bracket blank start gaps forms :: opened')

/-- The two readers have read the same up to an offset. -/
structure Same (src : String) (pos : Nat) (s : State) (a : Assembly) : Prop where
  opened : Agrees src pos s.opened s.stop a.opened
  gaps : s.gaps = a.gaps
  forms : s.forms = a.forms

variable {src : String} {pos start stop : Nat} {s : State} {a : Assembly} {form form' : Form} {blank : String}

/-- **A form finds the same place in both readers.** -/
theorem exists_place {opened : List Opened} {opened' : List EditableLisp.Opened}
    (h : Agrees src pos opened s.stop opened') (hblank : IsSlice src pos start blank) (hle : start ≤ stop)
    (hstop : IsBoundary src stop)
    (hform : ∀ text, IsSlice src start stop text → spelled text form' = form) :
    ∃ s', place src s form' start stop opened = pure s' ∧
      Same src stop s' (Assembly.place s.gaps s.forms blank form opened') := by
  generalize htop : s.stop = top at h
  induction h generalizing start form form' blank with
  | @outside pos =>
    obtain ⟨text, htext⟩ := exists_isSlice hblank.isBoundary.2.1 hstop hle
    refine ⟨⟨[], stop, blank :: s.gaps, form :: s.forms⟩, ?_, .outside, rfl, rfl⟩
    rw [place, htop, cut_of_isSlice hblank, cut_of_isSlice htext, ← hform text htext]
    rfl
  | @mark pos₀ pos start' top opened opened' style blank' _ hblank' hle' ih =>
    obtain ⟨-, hstart, hpos⟩ := hblank.isBoundary
    obtain ⟨text, htext⟩ := exists_isSlice hstart hstop hle
    have hmarked : ∀ text, IsSlice src start' stop text →
        spelled text (.marked style blank form) = .marked style blank form := fun _ _ => rfl
    obtain ⟨s', hs', hsame⟩ := ih hblank' (by omega) hmarked htop
    refine ⟨s', ?_, hsame⟩
    rw [place, cut_of_isSlice hblank, cut_of_isSlice htext, pure_bind, pure_bind, hform text htext]
    exact hs'
  | @collection pos₀ pos start' top opened opened' bracket blank' gaps forms hopened hblank' hle' _ =>
    obtain ⟨-, hstart, hpos⟩ := hblank.isBoundary
    obtain ⟨text, htext⟩ := exists_isSlice hstart hstop hle
    refine ⟨{ s with
      opened := .collection bracket start' stop (blank :: gaps) (form :: forms) :: opened }, ?_, ?_, rfl, rfl⟩
    · rw [place, cut_of_isSlice hblank, cut_of_isSlice htext, ← hform text htext]
      rfl
    · subst htop
      exact .collection hopened hblank' (by omega)

/-- A form that is no number and no string has no spelling. -/
theorem spelled_close {bracket : Bracket} {gaps : List String} {forms : List Form}
    (h : Assembly.close bracket gaps forms = .ok form) (text : String) : spelled text form = form := by
  cases bracket with
  | round | square =>
    cases h
    rfl
  | curly =>
    obtain ⟨entries, rfl, -, -⟩ := exists_entries_of_close h
    rfl

/-- The spelling of a word is the word. -/
theorem spelled_ofAtom {text : String} (h : Form.ofAtom text = .ok form) : spelled text form = form := by
  cases Form.ofAtom_iff.mp h with
  | nil | keyword | num | symbol => rfl
  | bool b => rfl

/-- **A word is read alike**, also where the name of a keyword is cut off. -/
theorem word_eq {t : Token} (ht : IsSlice src t.start t.stop t.lexeme) :
    word src t = match Form.ofAtom t.lexeme with
      | .ok form => pure form
      | .error cause => throw ⟨cause, t.start⟩ := by
  unfold word
  split
  · rename_i hcolon
    obtain ⟨cs, hl⟩ := List.head?_eq_some_iff.mp hcolon
    obtain ⟨name, hname⟩ : ∃ name, t.lexeme = ":" ++ name :=
      ⟨String.ofList cs, by rw [← String.toList_inj, hl, Form.toList_keyword, String.toList_ofList]⟩
    have hcut : IsSlice src (t.start + 1) t.stop name := by
      obtain ⟨before, after, hsrc, hstart, hstop⟩ := ht
      rw [hname] at hsrc hstop
      refine ⟨before ++ ":", after, ?_, ?_, ?_⟩
      · rw [hsrc]
        simp only [String.append_assoc]
      · rw [String.utf8ByteSize_append, hstart]
        rfl
      · rw [String.utf8ByteSize_append] at hstop
        have hcolon : ":".utf8ByteSize = 1 := rfl
        omega
    rw [cut_of_isSlice hcut, pure_bind, hname, Form.ofAtom_keyword]
    by_cases hempty : name = ""
    · rw [if_pos hempty, hempty]
      rfl
    · have hlist : name.toList.isEmpty = false := by simpa using hempty
      rw [if_neg hempty, hlist]
      rfl
  · rfl

/-- **A token is taken alike**, and an error stands at a boundary. -/
theorem shift_same {t : Token} (h : Same src pos s a) (hblank : IsSlice src pos t.start t.blank)
    (ht : IsSlice src t.start t.stop t.lexeme) :
    match a.shift t with
    | .ok a' => ∃ s', shift src s t = pure s' ∧ Same src t.stop s' a'
    | .error e => shift src s t = throw e ∧ IsBoundary src e.offset := by
  obtain ⟨hstart, hstop, hle⟩ := ht.isBoundary
  obtain ⟨opened, stop, gaps, forms⟩ := s
  obtain ⟨opened', gaps', forms'⟩ := a
  obtain ⟨hopened, rfl, rfl⟩ := h
  unfold Assembly.shift shift
  cases hk : t.kind with
  | opening bracket => exact ⟨_, rfl, .collection hopened hblank hle, rfl, rfl⟩
  | mark style => exact ⟨_, rfl, .mark hopened hblank hle, rfl, rfl⟩
  | text content =>
    have hform : ∀ text, IsSlice src t.start t.stop text →
        spelled text (.text content "") = .text content t.lexeme := by
      intro text htext
      have heq := (slice?_eq_some_iff.mpr htext).symm.trans (slice?_eq_some_iff.mpr ht)
      cases heq
      rfl
    exact exists_place (s := ⟨opened, stop, gaps, forms⟩) hopened hblank hle hstop hform
  | atom =>
    dsimp only
    rw [word_eq ht]
    cases hword : Form.ofAtom t.lexeme with
    | error cause => exact ⟨rfl, hstart⟩
    | ok form =>
      have hform : ∀ text, IsSlice src t.start t.stop text → spelled text form = form := by
        intro text htext
        have heq := (slice?_eq_some_iff.mpr htext).symm.trans (slice?_eq_some_iff.mpr ht)
        cases heq
        exact spelled_ofAtom hword
      exact exists_place (s := ⟨opened, stop, gaps, forms⟩) hopened hblank hle hstop hform
  | closing bracket =>
    cases hopened with
    | outside | mark => exact ⟨rfl, hstart⟩
    | @collection pos₀ _ start _ opened opened' bracket' blank gaps' forms' hopened hblank' hle' =>
      dsimp only
      by_cases hbracket : bracket = bracket'
      · rw [if_pos hbracket, if_pos hbracket, cut_of_isSlice hblank, pure_bind]
        cases hclose : Assembly.close bracket (t.blank :: gaps').reverse forms'.reverse with
        | error cause => exact ⟨rfl, hblank'.isBoundary.2.1⟩
        | ok form =>
          have hpos := hblank.isBoundary.2.2
          exact exists_place (s := ⟨_, stop, gaps, forms⟩) hopened hblank' (by omega) hstop
            fun text _ => spelled_close hclose text
      · rw [if_neg hbracket, if_neg hbracket]
        exact ⟨rfl, hstart⟩

/-- **A row of tokens is taken alike**, up to the first that cannot be taken. -/
theorem shiftAll_same {ts : List Token} {before tail : String} (h : Same src before.utf8ByteSize s a)
    (hplaced : Token.Placed before.utf8ByteSize ts) (hsrc : src = before ++ Token.textOf ts ++ tail) :
    match a.shiftAll ts with
    | .ok a' => ∃ s', ts.foldlM (shift src) s = pure s' ∧ Same src (src.utf8ByteSize - tail.utf8ByteSize) s' a'
    | .error stuck => ts.foldlM (shift src) s = throw stuck.error ∧ IsBoundary src stuck.error.offset := by
  induction ts generalizing s a before with
  | nil =>
    refine ⟨s, rfl, ?_⟩
    have hsize : src.utf8ByteSize - tail.utf8ByteSize = before.utf8ByteSize := by
      rw [hsrc, Token.textOf, String.append_empty, String.utf8ByteSize_append, Nat.add_sub_cancel]
    rwa [hsize]
  | cons t ts ih =>
    obtain ⟨hstart, hstop, hrest⟩ := hplaced
    rw [Token.textOf] at hsrc
    have hblank : IsSlice src before.utf8ByteSize t.start t.blank := by
      refine ⟨before, t.lexeme ++ Token.textOf ts ++ tail, ?_, rfl, hstart.symm⟩
      rw [hsrc]
      simp only [String.append_assoc]
    have ht : IsSlice src t.start t.stop t.lexeme := by
      refine ⟨before ++ t.blank, Token.textOf ts ++ tail, ?_, ?_, hstop.symm⟩
      · rw [hsrc]
        simp only [String.append_assoc]
      · rw [String.utf8ByteSize_append, hstart]
    have hnext : t.stop = (before ++ t.blank ++ t.lexeme).utf8ByteSize := by
      rw [String.utf8ByteSize_append, String.utf8ByteSize_append, hstop, hstart]
    have hshift := shift_same h hblank ht
    rw [Assembly.shiftAll, List.foldlM_cons]
    cases hone : a.shift t with
    | error e =>
      rw [hone] at hshift
      obtain ⟨hs, hboundary⟩ := hshift
      rw [hs]
      exact ⟨rfl, hboundary⟩
    | ok a' =>
      rw [hone] at hshift
      obtain ⟨s', hs, hsame⟩ := hshift
      rw [hs, pure_bind]
      rw [hnext] at hsame hrest
      refine ih hsame hrest ?_
      rw [hsrc]
      simp only [String.append_assoc]

/-- **A reading is finished alike.** -/
theorem finish_same {tail : String} (h : Same src pos s a) (htail : IsSlice src pos src.utf8ByteSize tail) :
    match a.finish tail src.utf8ByteSize with
    | .ok p => finish src s = pure p
    | .error e => finish src s = throw e ∧ IsBoundary src e.offset := by
  obtain ⟨opened, stop, gaps, forms⟩ := s
  obtain ⟨opened', gaps', forms'⟩ := a
  obtain ⟨hopened, rfl, rfl⟩ := h
  unfold Assembly.finish finish
  cases hopened with
  | outside =>
    dsimp only
    rw [cut_of_isSlice htail]
    rfl
  | mark => exact ⟨rfl, isBoundary_size src⟩
  | collection _ hblank => exact ⟨rfl, hblank.isBoundary.2.1⟩

end Cutting

/-! ## Errors -/

/-- **A scan fails at a boundary.** -/
theorem Token.isBoundary_of_scan {src : String} {e : ReadError} (h : Token.scan src = .error e) :
    IsBoundary src e.offset := by
  unfold Token.scan at h
  cases hf : (src.toList.foldl Token.Scan.next Token.Scan.initial).finish with
  | ok s =>
    rw [hf] at h
    cases h
  | error e' =>
    rw [hf] at h
    cases h
    have hc := Token.Scan.Covers.initial.foldl_next src.toList
    rw [String.empty_append, String.ofList_toList] at hc
    generalize src.toList.foldl Token.Scan.next Token.Scan.initial = s at hf hc
    -- the string that is open starts after the tokens so far and the blank text before it
    have hstart : ¬ s.mode.isIdle → IsBoundary src s.start := by
      intro hm
      refine isBoundary_iff.mpr ⟨Token.textOf s.tokens.toList ++ s.blank, s.lexeme, hc.text.symm, ?_⟩
      have hsize := congrArg String.utf8ByteSize hc.text
      rw [String.utf8ByteSize_append, ← hc.pos] at hsize
      have := hc.start hm
      omega
    unfold Token.Scan.finish at hf
    split at hf <;> cases hf <;> rename_i hm <;> exact hstart (by rw [hm]; exact Bool.false_ne_true)

/-- The size of a scan is the size of its source, and what stands after the last token is a slice. -/
theorem Token.tail_scan {src : String} {scanned : Scanned} (h : Token.scan src = .ok scanned) :
    scanned.size = src.utf8ByteSize ∧
      IsSlice src (src.utf8ByteSize - scanned.tail.utf8ByteSize) src.utf8ByteSize scanned.tail := by
  have htext := Token.textOf_scan h
  obtain ⟨s, hs, -, rfl⟩ := Token.covers_scan h
  refine ⟨hs.pos, Token.textOf s.tokens.toList, "", ?_, ?_, ?_⟩
  · rw [String.append_empty, htext]
  all_goals
    have hsize := congrArg String.utf8ByteSize htext
    rw [String.utf8ByteSize_append] at hsize
    dsimp only at hsize ⊢
    omega

/-- **The reader by slices reads as the reader by tokens does**, and an error stands at a boundary. -/
theorem Cutting.read_eq (src : String) :
    (Cutting.read src).run = some (Program.ofSource src) ∧
      ∀ e, Program.ofSource src = .error e → IsBoundary src e.offset := by
  unfold Cutting.read Program.ofSource Reading.ofSource
  cases hscan : Token.scan src with
  | error e =>
    refine ⟨rfl, ?_⟩
    rintro e' ⟨⟩
    exact Token.isBoundary_of_scan hscan
  | ok scanned =>
    obtain ⟨hsize, htail⟩ := Token.tail_scan hscan
    have hnothing : Cutting.Same src "".utf8ByteSize Cutting.initial .initial := ⟨.outside, rfl, rfl⟩
    have hall := Cutting.shiftAll_same hnothing (Token.placed_scan hscan)
      (by rw [String.empty_append, Token.textOf_scan hscan])
    dsimp only
    cases htaken : Assembly.initial.shiftAll scanned.tokens with
    | error stuck =>
      rw [htaken] at hall
      obtain ⟨hs, hboundary⟩ := hall
      rw [hs]
      refine ⟨rfl, ?_⟩
      rintro e' ⟨⟩
      exact hboundary
    | ok a =>
      rw [htaken] at hall
      obtain ⟨s, hs, hsame⟩ := hall
      have hfinish := Cutting.finish_same hsame htail
      rw [hs, pure_bind, hsize]
      dsimp only
      cases hdone : a.finish scanned.tail src.utf8ByteSize with
      | ok p =>
        rw [hdone] at hfinish
        refine ⟨by rw [hfinish]; rfl, nofun⟩
      | error e =>
        rw [hdone] at hfinish
        obtain ⟨hs, hboundary⟩ := hfinish
        refine ⟨by rw [hs]; rfl, ?_⟩
        rintro e' ⟨⟩
        exact hboundary

section

variable {src : String} {w : World} {e : ReadError}

/-- Reading a program fails as the program does. -/
theorem of_readProgram_eq_error (h : (readProgram src w).1 = .error e) : Program.ofSource src = .error e := by
  unfold readProgram at h
  unfold Program.ofSource
  cases hp : (Reading.ofSource src).program with
  | error e' =>
    rw [hp] at h
    cases h
    rfl
  | ok p =>
    rw [hp] at h
    cases h

/-- Reading a form fails as its program does, at the end of a text that holds no form, or at the start of one
that holds several. -/
theorem of_readForm_eq_error (h : (readForm src w).1 = .error e) :
    Program.ofSource src = .error e ∨ e.offset = src.utf8ByteSize ∨ e.offset = 0 := by
  unfold readForm at h
  unfold Program.ofSource
  cases hp : (Reading.ofSource src).program with
  | error e' =>
    rw [hp] at h
    cases h
    exact .inl rfl
  | ok p =>
    rw [hp] at h
    dsimp only at h
    split at h <;> cases h
    · exact .inr (.inl rfl)
    · exact .inr (.inr rfl)

end

/-- **The tokens of a text tile it, every cut of the reader by slices is a slice of it, and every error stands
at a boundary.** -/
theorem spans_of_source (src : String) :
    (∀ scanned, Token.scan src = .ok scanned → Token.Tiles src scanned.tokens scanned.tail) ∧
      (Cutting.read src).run = some (Program.ofSource src) ∧
      (∀ e, Token.scan src = .error e ∨ Program.ofSource src = .error e → IsBoundary src e.offset) ∧
      ∀ w e, (readForm src w).1 = .error e ∨ (readProgram src w).1 = .error e → IsBoundary src e.offset := by
  obtain ⟨hread, herror⟩ := Cutting.read_eq src
  refine ⟨fun scanned h => Token.tiles_scan h, hread, ?_, ?_⟩
  · rintro e (h | h)
    · exact Token.isBoundary_of_scan h
    · exact herror e h
  · rintro w e (h | h)
    · rcases of_readForm_eq_error h with h | h | h
      · exact herror e h
      · rw [h]
        exact isBoundary_size src
      · rw [h]
        exact isBoundary_zero src
    · exact herror e (of_readProgram_eq_error h)

end EditableLisp
