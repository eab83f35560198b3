import EditableLisp.Proofs.Lexing
import EditableLisp.Proofs.Parts

/-!
# Spans

A token has a span of byte offsets in its source. `IsBoundary` says that an offset does not fall inside a
character, and `slice?` cuts a source between two offsets, which fails where one of them is no boundary of the
source or they are not in order (`slice?_eq_some_iff`).

`Token.Tiles` gathers what the spans of the tokens of a text do: they are not empty and stand one after the
other, what stands between them is blank text, and each token is the slice of its span. A string is a slice
between two quotes that is read back by `unescape?`. The tokens of every text that can be scanned tile it
(**`Token.tiles_scan`**).
-/

namespace EditableLisp

/-! ## Boundaries -/

/-- A byte offset stands before a character of a text or at its end. -/
def IsBoundary (src : String) (offset : Nat) : Prop := (String.Pos.Raw.mk offset).IsValid src

/-- A boundary parts a text in two. -/
theorem isBoundary_iff {src : String} {offset : Nat} :
    IsBoundary src offset ↔ ∃ before after, src = before ++ after ∧ before.utf8ByteSize = offset := by
  unfold IsBoundary
  rw [String.Pos.Raw.isValid_iff_exists_append]
  constructor
  · rintro ⟨before, after, hsrc, hoffset⟩
    exact ⟨before, after, hsrc, (congrArg String.Pos.Raw.byteIdx hoffset).symm⟩
  · rintro ⟨before, after, hsrc, rfl⟩
    exact ⟨before, after, hsrc, rfl⟩

theorem isBoundary_zero (src : String) : IsBoundary src 0 :=
  isBoundary_iff.mpr ⟨"", src, String.empty_append.symm, rfl⟩

theorem isBoundary_size (src : String) : IsBoundary src src.utf8ByteSize :=
  isBoundary_iff.mpr ⟨src, "", String.append_empty.symm, rfl⟩

theorem IsSlice.isBoundary {src text : String} {start stop : Nat} (h : IsSlice src start stop text) :
    IsBoundary src start ∧ IsBoundary src stop ∧ start ≤ stop := by
  obtain ⟨before, after, rfl, rfl, rfl⟩ := h
  refine ⟨isBoundary_iff.mpr ⟨before, text ++ after, String.append_assoc, rfl⟩, ?_, Nat.le_add_right _ _⟩
  exact isBoundary_iff.mpr ⟨before ++ text, after, rfl, String.utf8ByteSize_append⟩

/-! ## Slices -/

/-- The characters before a byte offset and those after it, if it is a boundary. -/
def splitBytes? : Nat → List Char → Option (List Char × List Char)
  | 0, cs => some ([], cs)
  | _ + 1, [] => none
  | n + 1, c :: cs =>
    if c.utf8Size ≤ n + 1 then (splitBytes? (n + 1 - c.utf8Size) cs).map fun r => (c :: r.1, r.2) else none

/-- The text between two byte offsets, if they are boundaries and in order. -/
def slice? (src : String) (start stop : Nat) : Option String := do
  let (_, rest) ← splitBytes? start src.toList
  if start ≤ stop then
    let (text, _) ← splitBytes? (stop - start) rest
    return String.ofList text
  else none

theorem utf8ByteSize_ofList_cons (c : Char) (cs : List Char) :
    (String.ofList (c :: cs)).utf8ByteSize = c.utf8Size + (String.ofList cs).utf8ByteSize := by
  rw [Token.ofList_cons, String.utf8ByteSize_append, String.utf8ByteSize_singleton]

theorem splitBytes?_append (cs ds : List Char) :
    splitBytes? (String.ofList cs).utf8ByteSize (cs ++ ds) = some (cs, ds) := by
  induction cs with
  | nil =>
    rw [String.ofList_nil, String.utf8ByteSize_empty, splitBytes?]
    rfl
  | cons c cs ih =>
    have hpos := c.utf8Size_pos
    rw [utf8ByteSize_ofList_cons]
    obtain ⟨n, hn⟩ : ∃ n, c.utf8Size + (String.ofList cs).utf8ByteSize = n + 1 :=
      ⟨c.utf8Size + (String.ofList cs).utf8ByteSize - 1, by omega⟩
    have hrest : n + 1 - c.utf8Size = (String.ofList cs).utf8ByteSize := by omega
    rw [hn, List.cons_append, splitBytes?, if_pos (by omega), hrest, ih]
    rfl

theorem of_splitBytes? {n : Nat} {cs as bs : List Char} (h : splitBytes? n cs = some (as, bs)) :
    cs = as ++ bs ∧ (String.ofList as).utf8ByteSize = n := by
  induction cs generalizing n as bs with
  | nil =>
    cases n with
    | zero =>
      cases h
      exact ⟨rfl, rfl⟩
    | succ n => cases h
  | cons c cs ih =>
    cases n with
    | zero =>
      cases h
      exact ⟨rfl, rfl⟩
    | succ n =>
      rw [splitBytes?] at h
      split at h
      · rename_i hle
        obtain ⟨⟨as, bs⟩, hr, he⟩ := Option.map_eq_some_iff.mp h
        cases he
        obtain ⟨rfl, hsize⟩ := ih hr
        refine ⟨rfl, ?_⟩
        rw [utf8ByteSize_ofList_cons, hsize]
        omega
      · cases h

/-- **What can be cut out of a source are its slices.** -/
theorem slice?_eq_some_iff {src text : String} {start stop : Nat} :
    slice? src start stop = some text ↔ IsSlice src start stop text := by
  unfold slice?
  constructor
  · intro h
    obtain ⟨⟨as, rest⟩, hfirst, h⟩ := Option.bind_eq_some_iff.mp h
    dsimp only at h
    split at h
    · rename_i hle
      obtain ⟨⟨cs, ds⟩, hsecond, h⟩ := Option.bind_eq_some_iff.mp h
      cases h
      obtain ⟨hsrc, hstart⟩ := of_splitBytes? hfirst
      obtain ⟨rfl, hstop⟩ := of_splitBytes? hsecond
      refine ⟨String.ofList as, String.ofList ds, ?_, hstart, ?_⟩
      · rw [← String.ofList_append, ← String.ofList_append, List.append_assoc, ← hsrc, String.ofList_toList]
      · dsimp only
        omega
    · cases h
  · rintro ⟨before, after, rfl, rfl, rfl⟩
    have hfirst := splitBytes?_append before.toList (text.toList ++ after.toList)
    have hsecond := splitBytes?_append text.toList after.toList
    rw [String.ofList_toList] at hfirst hsecond
    rw [String.toList_append, String.toList_append, List.append_assoc, hfirst, Option.bind_eq_bind,
      Option.bind_some]
    dsimp only
    rw [if_pos (Nat.le_add_right _ _), Nat.add_sub_cancel_left, hsecond, Option.bind_some,
      String.ofList_toList]
    rfl

/-- A cut inside a character fails. -/
example : slice? "é(x" 2 4 = some "(x" ∧ slice? "é(x" 1 4 = none := by decide +kernel

/-- Between two boundaries in order there is a slice. -/
theorem exists_isSlice {src : String} {start stop : Nat} (hstart : IsBoundary src start)
    (hstop : IsBoundary src stop) (hle : start ≤ stop) : ∃ text, IsSlice src start stop text := by
  obtain ⟨before, rest, hsrc, rfl⟩ := isBoundary_iff.mp hstart
  obtain ⟨upTo, after, hsrc', rfl⟩ := isBoundary_iff.mp hstop
  have happend : before.toList ++ rest.toList = upTo.toList ++ after.toList := by
    rw [← String.toList_append, ← String.toList_append, ← hsrc, ← hsrc']
  rcases List.append_eq_append_iff.mp happend with ⟨text, hupTo, -⟩ | ⟨text, hbefore, -⟩
  · obtain rfl : upTo = before ++ String.ofList text := by
      rw [← String.toList_inj, String.toList_append, String.toList_ofList, hupTo]
    exact ⟨String.ofList text, before, after, hsrc', rfl, String.utf8ByteSize_append.symm⟩
  · -- the offsets are the same, so the slice is empty
    obtain rfl : before = upTo ++ String.ofList text := by
      rw [← String.toList_inj, String.toList_append, String.toList_ofList, hbefore]
    rw [String.utf8ByteSize_append] at hle
    obtain rfl : text = [] := by
      cases text with
      | nil => rfl
      | cons c cs =>
        have hpos := c.utf8Size_pos
        rw [utf8ByteSize_ofList_cons] at hle
        omega
    rw [String.ofList_nil, String.append_empty] at hsrc ⊢
    exact ⟨"", upTo, rest, by rw [String.append_empty, ← hsrc], rfl, rfl⟩

/-! ## Strings -/

/-- What stands for some characters between quotes is read back, if no quote stands for itself in it and no
backslash is the last of it. -/
def unescape? : List Char → Option (List Char)
  | [] => some []
  | c :: rest =>
    if c = '"' then none
    else if c = '\\' then
      match rest with
      | [] => none
      | d :: rest => (unescape? rest).map (Text.unescapeChar d :: ·)
    else (unescape? rest).map (c :: ·)

/-- A character other than a quote and a backslash stands for itself. -/
theorem unescape?_cons {c : Char} (hq : c ≠ '"') (hb : c ≠ '\\') (rest : List Char) :
    unescape? (c :: rest) = (unescape? rest).map (c :: ·) := by
  rw [unescape?.eq_def]
  dsimp only
  rw [if_neg hq, if_neg hb]

/-- A backslash stands for something with the character after it. -/
theorem unescape?_escape (c : Char) (rest : List Char) :
    unescape? ('\\' :: c :: rest) = (unescape? rest).map (Text.unescapeChar c :: ·) := by
  rw [unescape?.eq_def]
  dsimp only
  rw [if_neg (by decide), if_pos rfl]

/-- What is read back is read back from the left. -/
theorem unescape?_append {cs ds : List Char} (h : unescape? cs = some ds) (more : List Char) :
    unescape? (cs ++ more) = (unescape? more).map (ds ++ ·) := by
  fun_induction unescape? cs generalizing ds with
  | case1 =>
    cases h
    exact Option.map_id'.symm
  | case2 => cases h
  | case3 => cases h
  | case4 d rest hq ih =>
    obtain ⟨es, hes, rfl⟩ := Option.map_eq_some_iff.mp h
    rw [List.cons_append, List.cons_append, unescape?_escape, ih hes, Option.map_map]
    rfl
  | case5 c rest hq hb ih =>
    obtain ⟨es, hes, rfl⟩ := Option.map_eq_some_iff.mp h
    rw [List.cons_append, unescape?_cons hq hb, ih hes, Option.map_map]
    rfl

namespace Token

/-- What was read of a string after its opening quote is read back as its content so far, up to a backslash
that waits for a character. -/
theorem Started.unescape {mode : Mode} {l : String} (h : Started mode l) :
    match mode with
    | .text content => ∃ inner, l.toList = '"' :: inner ∧ unescape? inner = some content.toList
    | .escape content => ∃ inner, l.toList = '"' :: (inner ++ ['\\']) ∧ unescape? inner = some content.toList
    | _ => True := by
  induction h with
  | tilde | atom | extend => trivial
  | quote => exact ⟨[], rfl, rfl⟩
  | @char content l c _ hq hb ih =>
    obtain ⟨inner, hl, hinner⟩ := ih
    refine ⟨inner ++ [c], ?_, ?_⟩
    · rw [String.toList_push, hl, List.cons_append]
    · rw [unescape?_append hinner, unescape?_cons hq hb, String.toList_push]
      rfl
  | backslash _ ih =>
    obtain ⟨inner, hl, hinner⟩ := ih
    exact ⟨inner, by rw [String.toList_push, hl, List.cons_append], hinner⟩
  | @escaped content l c _ ih =>
    obtain ⟨inner, hl, hinner⟩ := ih
    refine ⟨inner ++ ['\\', c], ?_, ?_⟩
    · rw [String.toList_push, hl, List.cons_append, List.append_assoc]
      rfl
    · rw [unescape?_append hinner, unescape?_escape, String.toList_push]
      rfl

/-- **A string stands between two quotes and is read back as its content.** -/
theorem IsLexeme.unescape {content l : String} (h : IsLexeme (.text content) l) :
    ∃ inner, l.toList = '"' :: (inner ++ ['"']) ∧ unescape? inner = some content.toList := by
  cases h with
  | text hstarted =>
    obtain ⟨inner, hl, hinner⟩ := hstarted.unescape
    exact ⟨inner, by rw [String.toList_push, hl, List.cons_append], hinner⟩

/-- No character of a name or number ends one. -/
theorem IsLexeme.word_atom {l : String} (h : IsLexeme .atom l) : ∀ c ∈ l.toList, endsAtom c = false := by
  cases h with
  | atom hstarted => exact hstarted.word

/-! ## Tokens that tile a source -/

/-- The tokens of a source and the text after them make it up. -/
structure Tiles (src : String) (tokens : List Token) (tail : String) : Prop where
  /-- A token is the slice of its span. -/
  slices : ∀ t ∈ tokens, IsSlice src t.start t.stop t.lexeme
  /-- The ends of a span are boundaries. -/
  boundaries : ∀ t ∈ tokens, IsBoundary src t.start ∧ IsBoundary src t.stop
  /-- No span is empty. -/
  nonempty : ∀ t ∈ tokens, t.start < t.stop
  /-- Each span stands after those before it. -/
  ordered : tokens.Pairwise fun t u => t.stop ≤ u.start
  /-- What stands before a token, up to the one before it, is blank text in which every comment has ended. -/
  gaps : ∀ before t after, tokens = before ++ t :: after →
    IsSlice src (stopOf before) t.start t.blank ∧ Gap false t.blank
  /-- What stands after the last token is blank text, the last comment of which goes on to the end. -/
  last : IsSlice src (stopOf tokens) src.utf8ByteSize tail ∧ ∃ inside, Gap inside tail
  /-- No character of a name or number ends one. -/
  words : ∀ t ∈ tokens, t.kind = .atom → ∀ c ∈ t.lexeme.toList, endsAtom c = false
  /-- A string stands between two quotes and is read back as its content. -/
  strings : ∀ t ∈ tokens, ∀ content, t.kind = .text content →
    ∃ inner, t.lexeme.toList = '"' :: (inner ++ ['"']) ∧ unescape? inner = some content.toList

/-- Tokens in a row stop where their text ends. -/
theorem stopOf_of_placed_zero {ts : List Token} (h : Placed 0 ts) : stopOf ts = (textOf ts).utf8ByteSize := by
  by_cases hne : ts = []
  · rw [hne]
    rfl
  · rw [stopOf_of_placed h hne, Nat.zero_add]

/-- Tokens in a row start after the place where the row begins, and each after those before it. -/
theorem Placed.pairwise {pos : Nat} {ts : List Token} (h : Placed pos ts) :
    (∀ t ∈ ts, pos ≤ t.start) ∧ ts.Pairwise fun t u => t.stop ≤ u.start := by
  induction ts generalizing pos with
  | nil => exact ⟨nofun, .nil⟩
  | cons t ts ih =>
    obtain ⟨hstart, hstop, hrest⟩ := h
    obtain ⟨hafter, hpairwise⟩ := ih hrest
    refine ⟨List.forall_mem_cons.mpr ⟨by omega, fun u hu => ?_⟩, List.pairwise_cons.mpr ⟨hafter, hpairwise⟩⟩
    have := hafter u hu
    omega

section

variable {src tail : String} {before after : List Token} {t : Token}

/-- A token in a row is the slice of its span, and what stands before it goes back to the token before. -/
theorem isSlice_of_placed (htext : textOf (before ++ t :: after) ++ tail = src)
    (hplaced : Placed 0 (before ++ t :: after)) :
    IsSlice src t.start t.stop t.lexeme ∧ IsSlice src (stopOf before) t.start t.blank := by
  rw [placed_append, Nat.zero_add] at hplaced
  obtain ⟨hbefore, hstart, hstop, -⟩ := hplaced
  rw [textOf_append, textOf] at htext
  refine ⟨⟨textOf before ++ t.blank, textOf after ++ tail, ?_, ?_, hstop.symm⟩,
    ⟨textOf before, t.lexeme ++ textOf after ++ tail, ?_, ?_, ?_⟩⟩
  · rw [← htext]
    simp only [String.append_assoc]
  · rw [String.utf8ByteSize_append, hstart]
  · rw [← htext]
    simp only [String.append_assoc]
  · exact (stopOf_of_placed_zero hbefore).symm
  · rw [stopOf_of_placed_zero hbefore, hstart]

end

/-- **The tokens of a text tile it.** -/
theorem tiles_scan {src : String} {scanned : Scanned} (h : scan src = .ok scanned) :
    Tiles src scanned.tokens scanned.tail := by
  have htext := textOf_scan h
  have hplaced := placed_scan h
  obtain ⟨hformed, htail⟩ := wellFormed_scan h
  have hslices : ∀ t ∈ scanned.tokens, IsSlice src t.start t.stop t.lexeme := by
    intro t ht
    obtain ⟨before, after, hsplit⟩ := List.append_of_mem ht
    rw [hsplit] at htext hplaced
    exact (isSlice_of_placed htext hplaced).1
  constructor
  case slices => exact hslices
  case boundaries =>
    intro t ht
    obtain ⟨hstart, hstop, -⟩ := (hslices t ht).isBoundary
    exact ⟨hstart, hstop⟩
  case nonempty =>
    intro t ht
    obtain ⟨-, -, -, -, hstop⟩ := hslices t ht
    have hne : t.lexeme.utf8ByteSize ≠ 0 := by
      intro hzero
      rw [String.utf8ByteSize_eq_zero_iff] at hzero
      exact (hformed t ht).lexeme.ne_empty (by rw [hzero]; rfl)
    omega
  case ordered => exact hplaced.pairwise.2
  case gaps =>
    intro before t after hsplit
    have ht : t ∈ scanned.tokens := hsplit ▸ List.mem_append_right _ List.mem_cons_self
    rw [hsplit] at htext hplaced
    exact ⟨(isSlice_of_placed htext hplaced).2, (hformed t ht).gap⟩
  case last =>
    refine ⟨⟨textOf scanned.tokens, "", ?_, (stopOf_of_placed_zero hplaced).symm, ?_⟩, htail⟩
    · rw [String.append_empty, htext]
    · rw [stopOf_of_placed_zero hplaced, ← String.utf8ByteSize_append, htext]
  case words =>
    intro t ht hk
    have hlexeme := (hformed t ht).lexeme
    rw [hk] at hlexeme
    exact hlexeme.word_atom
  case strings =>
    intro t ht content hk
    have hlexeme := (hformed t ht).lexeme
    rw [hk] at hlexeme
    exact hlexeme.unescape

end Token

end EditableLisp
