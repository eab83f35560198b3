import Mathlib.Data.List.Forall2
import EditableLisp.Proofs.Wholes

/-!
# JSON texts read back

The JSON library that runs does what is asked of one (**`lawful_standard`**): a tree of integers that is at most 127
arrays and objects deep is read back from its text.

`Tree.text` is the JSON text of a tree. Scanning takes it apart into `Tree.tokens`: a text is scanned up to a
place between tokens (`Scans`), or an integer is still open there (`Reads`), which the next character closes.
Assembly puts the tokens together again and delivers the tree where a value is expected (`Plain.takes`).
-/

namespace EditableLisp.Json

/-! ## Trees as texts and tokens -/

namespace Tree

mutual

/-- The tokens of a tree. -/
def tokens : Tree → List Token
  | .null => [.null]
  | .bool b => [.bool b]
  | .int n => [.int n]
  | .num x => [.num x]
  | .str s => [.str s]
  | .arr items => .openArray :: [Token.comma].intercalate (tokensEach items) ++ [.closeArray]
  | .obj members => .openObject :: [Token.comma].intercalate (memberTokens members) ++ [.closeObject]

/-- The tokens of trees. -/
def tokensEach : List Tree → List (List Token)
  | [] => []
  | t :: rest => t.tokens :: tokensEach rest

/-- The tokens of members. -/
def memberTokens : List (String × Tree) → List (List Token)
  | [] => []
  | (name, t) :: rest => (.str name :: .colon :: t.tokens) :: memberTokens rest

end

end Tree

/-! ## Scanning -/

/-- The characters are scanned as these tokens, up to a place between tokens. -/
def Scans (cs : List Char) (ts : List Token) : Prop :=
  ∀ found : Array Token, cs.foldl Scan.next ⟨.blank, found⟩ = ⟨.blank, found ++ ts⟩

/-- A scan has found some tokens; the last one may be an integer that could go on. -/
inductive Scan.Ends (found : Array Token) : Scan → Prop where
  | blank : Scan.Ends found ⟨.blank, found⟩
  | number {p : Part} {cs : List Char} {n : Int} {before : Array Token} (complete : p.isComplete = true)
      (reads : integer? cs.reverse = some n) (found_eq : found = before.push (.int n)) :
      Scan.Ends found ⟨.number p cs, before⟩

/-- The characters are scanned as these tokens, and another token may follow. -/
def Reads (cs : List Char) (ts : List Token) : Prop :=
  ∀ found : Array Token, Scan.Ends (found ++ ts) (cs.foldl Scan.next ⟨.blank, found⟩)

/-- A character between values, as a token. -/
inductive Delimits : Char → Token → Prop where
  | comma : Delimits ',' .comma
  | closeArray : Delimits ']' .closeArray
  | closeObject : Delimits '\x7d' .closeObject

variable {cs ds : List Char} {ts us : List Token} {found : Array Token}

theorem Scan.Ends.finish {s : Scan} (h : Scan.Ends found s) : s.finish = found.toList := by
  cases h with
  | blank => rfl
  | @number p cs n before complete reads found_eq =>
    unfold Scan.finish
    dsimp only
    rw [if_pos complete]
    unfold Scan.closeNumber
    rw [reads, found_eq]
    rfl

/-- A character between values ends a number and is a token of its own. -/
theorem Scan.Ends.next {s : Scan} (h : Scan.Ends found s) {c : Char} {t : Token} (hc : Delimits c t) :
    s.next c = ⟨.blank, found.push t⟩ := by
  cases h with
  | blank => cases hc <;> rfl
  | @number p cs n before complete reads found_eq =>
    have hover : p.next c = .over := by
      cases hc <;> cases p <;> first | rfl | cases complete
    unfold Scan.next
    dsimp only
    rw [hover]
    unfold Scan.closeNumber
    dsimp only
    rw [reads, found_eq]
    cases hc <;> rfl

theorem append_append (found : Array Token) (ts us : List Token) : found ++ ts ++ us = found ++ (ts ++ us) := by
  rw [← Array.toList_inj]
  simp

theorem Scans.append (h : Scans cs ts) (h' : Scans ds us) : Scans (cs ++ ds) (ts ++ us) := by
  intro found
  rw [List.foldl_append, h found, h' _, append_append]

theorem Scans.reads (h : Scans cs ts) : Reads cs ts := by
  intro found
  rw [h found]
  exact .blank

theorem Scans.append_reads (h : Scans cs ts) (h' : Reads ds us) : Reads (cs ++ ds) (ts ++ us) := by
  intro found
  rw [List.foldl_append, h found, ← append_append]
  exact h' _

theorem Reads.delimited (h : Reads cs ts) {c : Char} {t : Token} (hc : Delimits c t) :
    Scans (cs ++ [c]) (ts ++ [t]) := by
  intro found
  rw [List.foldl_append, List.foldl_cons, List.foldl_nil, (h found).next hc, ← append_append]
  rfl

/-- A character that is a token of its own. -/
theorem Delimits.scans {c : Char} {t : Token} (hc : Delimits c t) : Scans [c] [t] :=
  fun _ => Scan.Ends.blank.next hc

/-- Texts with a comma between them, before a closing bracket. -/
theorem scans_separated {c : Char} {t : Token} (hc : Delimits c t) {texts : List (List Char)}
    {tokens : List (List Token)} (h : List.Forall₂ Reads texts tokens) :
    Scans ([','].intercalate texts ++ [c]) ([Token.comma].intercalate tokens ++ [t]) := by
  induction h with
  | nil => exact hc.scans
  | @cons cs ts texts tokens hfirst hrest ih =>
    cases hrest with
    | nil =>
      rw [List.intercalate_singleton, List.intercalate_singleton]
      exact hfirst.delimited hc
    | @cons ds us texts tokens hsecond hrest =>
      have hboth := (hfirst.delimited .comma).append ih
      simpa only [List.intercalate_cons_cons, List.append_assoc] using hboth

/-! ## Strings -/

theorem hexDigit?_hexDigit {n : Nat} (h : n < 16) : Scan.hexDigit? (hexDigit n) = some n := by
  have hall : ∀ d : Fin 16, Scan.hexDigit? (hexDigit d) = some d.val := by decide
  exact hall ⟨n, h⟩

theorem next_hex (content : String) (high : Option Nat) (digits value : Nat) {c : Char} {d : Nat}
    (h : Scan.hexDigit? c = some d) (found : Array Token) :
    Scan.next ⟨.hex content high digits value, found⟩ c =
      if digits = 3 then Scan.closeHex ⟨.hex content high digits value, found⟩ content high (value * 16 + d)
      else ⟨.hex content high (digits + 1) (value * 16 + d), found⟩ := by
  unfold Scan.next
  dsimp only
  rw [h]

/-- An escaped character is read as the character. -/
theorem foldl_escapeChar (c : Char) (content : String) (found : Array Token) :
    (escapeChar c).foldl Scan.next ⟨.text content, found⟩ = ⟨.text (content.push c), found⟩ := by
  by_cases hquote : c = '"'
  · subst hquote; rfl
  by_cases hslash : c = '\\'
  · subst hslash; rfl
  by_cases hb : c = '\x08'
  · subst hb; rfl
  by_cases hf : c = '\x0c'
  · subst hf; rfl
  by_cases hn : c = '\n'
  · subst hn; rfl
  by_cases hr : c = '\r'
  · subst hr; rfl
  by_cases ht : c = '\t'
  · subst ht; rfl
  unfold escapeChar
  rw [if_neg hquote, if_neg hslash, if_neg hb, if_neg hf, if_neg hn, if_neg hr, if_neg ht]
  by_cases hlow : c.toNat < 0x20
  · rw [if_pos hlow]
    show Scan.next (Scan.next ⟨.hex content none 2 0, found⟩ (hexDigit (c.toNat / 16)))
      (hexDigit (c.toNat % 16)) = _
    have hclose : ∀ s : Scan, s.closeHex content none c.toNat = { s with mode := .text (content.push c) } := by
      intro s
      unfold Scan.closeHex Scan.isHigh Scan.isLow
      dsimp only
      rw [if_neg (by simp only [Bool.and_eq_true, decide_eq_true_eq]; omega),
        if_neg (by simp only [Bool.and_eq_true, decide_eq_true_eq]; omega), Char.ofNat_toNat]
    have hsum : 0 * 16 + c.toNat / 16 = c.toNat / 16 := by omega
    have hvalue : c.toNat / 16 * 16 + c.toNat % 16 = c.toNat := by omega
    rw [next_hex _ _ _ _ (hexDigit?_hexDigit (by omega)), hsum, if_neg (by decide),
      next_hex _ _ _ _ (hexDigit?_hexDigit (by omega)), hvalue, if_pos rfl, hclose]
  · rw [if_neg hlow]
    show Scan.next ⟨.text content, found⟩ c = _
    unfold Scan.next
    dsimp only
    rw [if_neg hquote, if_neg hslash, if_neg hlow]

/-- **A string in quotes is scanned as the string.** -/
theorem scans_quote (s : String) : Scans (quote s).toList [.str s] := by
  have inside : ∀ (cs : List Char) (content : String) (found : Array Token),
      (cs.flatMap escapeChar).foldl Scan.next ⟨.text content, found⟩ =
        ⟨.text (content ++ String.ofList cs), found⟩ := by
    intro cs
    induction cs with
    | nil =>
      intro content found
      rw [String.ofList_nil, String.append_empty]
      rfl
    | cons c cs ih =>
      intro content found
      have hpush : content.push c ++ String.ofList cs = content ++ String.ofList (c :: cs) := by
        rw [← String.toList_inj]
        simp
      rw [List.flatMap_cons, List.foldl_append, foldl_escapeChar, ih, hpush]
  intro found
  unfold quote
  rw [String.toList_ofList, List.cons_append, List.foldl_cons, List.foldl_append]
  show List.foldl Scan.next (List.foldl Scan.next ⟨.text "", found⟩ (s.toList.flatMap escapeChar)) ['"'] = _
  rw [inside, String.empty_append, String.ofList_toList]
  rfl

/-! ## Numbers -/

/-- Digits go on with a whole number. -/
theorem foldl_digits {cs : List Char} (h : ∀ c ∈ cs, c.isDigit = true) (before : List Char)
    (found : Array Token) : cs.foldl Scan.next ⟨.number .whole before, found⟩ =
      ⟨.number .whole (cs.reverse ++ before), found⟩ := by
  induction cs generalizing before with
  | nil => rfl
  | cons c cs ih =>
    obtain ⟨hc, hcs⟩ := List.forall_mem_cons.mp h
    have hnext : Scan.next ⟨.number .whole before, found⟩ c = ⟨.number .whole (c :: before), found⟩ := by
      unfold Scan.next Part.next
      dsimp only
      rw [if_pos hc]
      rfl
    rw [List.foldl_cons, hnext, ih hcs, List.reverse_cons, List.append_assoc, List.singleton_append]

/-- After a first digit, or a sign and a first digit, the digits of a number are all read. -/
theorem foldl_toDigits {n : Nat} {mode : Mode} {before : List Char}
    (hfirst : ∀ c : Char, c.isDigit = true → ∀ found : Array Token,
      Scan.next ⟨mode, found⟩ c = ⟨.number (if c = '0' then .zero else .whole) (c :: before), found⟩)
    (found : Array Token) : ∃ p : Part, p.isComplete = true ∧
      (Nat.toDigits 10 n).foldl Scan.next ⟨mode, found⟩ =
        ⟨.number p ((Nat.toDigits 10 n).reverse ++ before), found⟩ := by
  have hdigits := Number.all_isDigit_toDigits n
  rcases Nat.eq_zero_or_pos n with rfl | hpos
  · exact ⟨.zero, rfl, hfirst '0' (by decide) found⟩
  · have hhead := Number.head?_toDigits hpos
    have hsome : Nat.toDigits 10 n ≠ [] := Nat.toDigits_ne_nil
    generalize Nat.toDigits 10 n = cs at hdigits hhead hsome
    cases cs with
    | nil => exact absurd rfl hsome
    | cons c cs =>
      obtain ⟨hc, hcs⟩ := List.forall_mem_cons.mp hdigits
      have hne : c ≠ '0' := fun h => hhead (congrArg some h)
      refine ⟨.whole, rfl, ?_⟩
      rw [List.foldl_cons, hfirst c hc, if_neg hne, foldl_digits hcs, List.reverse_cons, List.append_assoc,
        List.singleton_append]

/-- A first digit opens a number. -/
theorem fresh_digit {c : Char} (hc : c.isDigit = true) (found : Array Token) :
    Scan.next ⟨.blank, found⟩ c = ⟨.number (if c = '0' then .zero else .whole) [c], found⟩ := by
  have other : ∀ d : Char, d.isDigit = false → c ≠ d := fun d hd h => by rw [h, hd] at hc; cases hc
  show Scan.fresh ⟨.blank, found⟩ c = _
  unfold Scan.fresh
  rw [if_neg (by simp [other ' ' rfl, other '\t' rfl, other '\n' rfl, other '\r' rfl]), if_neg (other _ rfl),
    if_neg (other _ rfl), if_neg (other _ rfl), if_neg (other _ rfl), if_neg (other _ rfl),
    if_neg (other _ rfl), if_neg (other _ rfl), if_neg (other _ rfl), if_pos hc]

/-- **The text of an integer is scanned as the integer.** -/
theorem reads_int {i : Int} (h : i.natAbs < integerLimit) : Reads (Tree.int i).text.toList [.int i] := by
  intro found
  have hread := integer?_int h
  rw [toList_int] at hread ⊢
  split at hread
  · rename_i hsign
    rw [if_pos hsign, List.foldl_cons]
    obtain ⟨p, hp, hdigits⟩ := @foldl_toDigits i.natAbs (.number .sign ['-']) ['-']
      (fun c hc found => by
        unfold Scan.next Part.next
        dsimp only
        rw [if_pos hc]
        rfl) found
    show Scan.Ends _ (List.foldl Scan.next ⟨.number .sign ['-'], found⟩ (Nat.toDigits 10 i.natAbs))
    rw [hdigits]
    refine .number hp ?_ rfl
    rw [List.reverse_append, List.reverse_reverse]
    exact hread
  · rename_i hsign
    rw [if_neg hsign]
    obtain ⟨p, hp, hdigits⟩ := @foldl_toDigits i.natAbs .blank []
      (fun c hc found => fresh_digit hc found) found
    rw [hdigits]
    refine .number hp ?_ rfl
    rw [List.append_nil, List.reverse_reverse]
    exact hread

/-! ## Texts of trees -/

theorem scans_null : Scans "null".toList [.null] := fun _ => rfl

theorem scans_bool (b : Bool) : Scans (if b then "true" else "false").toList [.bool b] := by
  intro found
  cases b <;> rfl

namespace Tree

theorem texts_eq_map (items : List Tree) : texts items = items.map text := by
  induction items with
  | nil => rfl
  | cons t rest ih =>
    unfold texts
    rw [ih, List.map_cons]

theorem tokensEach_eq_map (items : List Tree) : tokensEach items = items.map tokens := by
  induction items with
  | nil => rfl
  | cons t rest ih =>
    unfold tokensEach
    rw [ih, List.map_cons]

theorem memberTexts_eq_map (members : List (String × Tree)) :
    memberTexts members = members.map fun m => quote m.1 ++ ":" ++ m.2.text := by
  induction members with
  | nil => rfl
  | cons m rest ih =>
    unfold memberTexts
    rw [ih, List.map_cons]

theorem memberTokens_eq_map (members : List (String × Tree)) :
    memberTokens members = members.map fun m => .str m.1 :: .colon :: m.2.tokens := by
  induction members with
  | nil => rfl
  | cons m rest ih =>
    unfold memberTokens
    rw [ih, List.map_cons]

variable {n : Nat} {t : Tree}

/-- **The text of a tree is scanned as its tokens.** -/
theorem Plain.reads (h : Plain n t) : Reads t.text.toList t.tokens := by
  induction h with
  | null =>
    unfold text tokens
    exact scans_null.reads
  | bool b =>
    unfold text tokens
    exact (scans_bool b).reads
  | int small => exact reads_int small
  | str s =>
    unfold text tokens
    exact (scans_quote s).reads
  | @arr n items each ih =>
    have hitems : List.Forall₂ Reads ((texts items).map String.toList) (tokensEach items) := by
      rw [texts_eq_map, tokensEach_eq_map, List.map_map, List.forall₂_map_left_iff,
        List.forall₂_map_right_iff, List.forall₂_same]
      exact ih
    have hopen : Scans ['['] [.openArray] := fun _ => rfl
    have hwhole := hopen.append (scans_separated .closeArray hitems)
    unfold text tokens
    simp only [String.toList_append, String.toList_intercalate]
    exact hwhole.reads
  | @obj n members each ih =>
    have hcolon : Scans [':'] [.colon] := fun _ => rfl
    have hmembers : List.Forall₂ Reads ((memberTexts members).map String.toList) (memberTokens members) := by
      rw [memberTexts_eq_map, memberTokens_eq_map, List.map_map, List.forall₂_map_left_iff,
        List.forall₂_map_right_iff, List.forall₂_same]
      intro m hm
      have hmember := ((scans_quote m.1).append hcolon).append_reads (ih m hm)
      show Reads (quote m.1 ++ ":" ++ m.2.text).toList _
      rw [String.toList_append, String.toList_append]
      exact hmember
    have hopen : Scans ['\x7b'] [.openObject] := fun _ => rfl
    have hwhole := hopen.append (scans_separated .closeObject hmembers)
    unfold text tokens
    simp only [String.toList_append, String.toList_intercalate]
    exact hwhole.reads

theorem Plain.tokens_text (h : Plain n t) : Json.tokens t.text = t.tokens := by
  unfold Json.tokens
  rw [(h.reads #[]).finish]
  simp

end Tree

/-! ## Assembly -/

namespace Assembly

/-- What is read once a step was taken. -/
def Step.after (s : Step) (rest : List Token) : Reading :=
  match s with
  | .more a => a.run rest
  | .done tree strings => ⟨strings.reverse, if rest.isEmpty then some tree else none⟩
  | .stuck strings => ⟨strings.reverse, none⟩

theorem run_cons (a : Assembly) (t : Token) (rest : List Token) : a.run (t :: rest) = (a.shift t).after rest :=
  rfl

/-- A value may come next. -/
inductive Awaits : Expected → Prop where
  | value : Awaits .value
  | valueOrClose : Awaits .valueOrClose

/-- Where a value may come, these tokens are taken as the tree, if there is room for so many arrays and
objects. -/
def Takes (room : Nat) (ts : List Token) (strings : List String) (t : Tree) : Prop :=
  ∀ (opened : List Opened) {e : Expected} (before : List String) (rest : List Token), Awaits e →
    opened.length + room ≤ depthMax →
    run ⟨opened, e, before⟩ (ts ++ rest) = (deliver opened (strings.reverse ++ before) t).after rest

variable {n : Nat} {opened : List Opened}

/-- The items of an array are taken one after the other. -/
theorem run_items {items : List Tree} (h : ∀ t ∈ items, Takes n t.tokens t.strings t) (hsome : items ≠ [])
    (hroom : opened.length + 1 + n ≤ depthMax) {e : Expected} (he : Awaits e) (done : List Tree)
    (before : List String) (rest : List Token) :
    run ⟨.array done :: opened, e, before⟩
        ([Token.comma].intercalate (Tree.tokensEach items) ++ .closeArray :: rest) =
      (deliver opened ((Tree.stringsEach items).reverse ++ before) (.arr (done.reverse ++ items))).after rest := by
  induction items generalizing e done before with
  | nil => exact absurd rfl hsome
  | cons t items ih =>
    obtain ⟨ht, hitems⟩ := List.forall_mem_cons.mp h
    unfold Tree.stringsEach
    cases items with
    | nil =>
      unfold Tree.tokensEach Tree.tokensEach Tree.stringsEach
      rw [List.intercalate_singleton, ht (.array done :: opened) _ _ he hroom]
      show run ⟨.array (t :: done) :: opened, .separator, _⟩ (.closeArray :: rest) = _
      rw [run_cons, List.append_nil]
      show (deliver opened _ (.arr (t :: done).reverse)).after rest = _
      rw [List.reverse_cons]
    | cons u items =>
      have htokens : [Token.comma].intercalate (Tree.tokensEach (t :: u :: items)) =
          t.tokens ++ .comma :: [Token.comma].intercalate (Tree.tokensEach (u :: items)) := by
        show [Token.comma].intercalate (t.tokens :: u.tokens :: Tree.tokensEach items) = _
        rw [List.intercalate_cons_cons, List.append_assoc, List.singleton_append]
        rfl
      rw [htokens, List.append_assoc, ht (.array done :: opened) _ _ he hroom]
      show run ⟨.array (t :: done) :: opened, .value, t.strings.reverse ++ before⟩
        ([Token.comma].intercalate (Tree.tokensEach (u :: items)) ++ .closeArray :: rest) = _
      rw [ih hitems (List.cons_ne_nil _ _) .value, List.reverse_append, List.append_assoc, List.reverse_cons,
        List.append_assoc, List.singleton_append]

/-- The members of an object are taken one after the other. -/
theorem run_members {members : List (String × Tree)} (h : ∀ m ∈ members, Takes n m.2.tokens m.2.strings m.2)
    (hsome : members ≠ []) (hroom : opened.length + 1 + n ≤ depthMax) {e : Expected}
    (he : e = .key ∨ e = .keyOrClose) (done : List (String × Tree)) (key : String) (before : List String)
    (rest : List Token) :
    run ⟨.object done key :: opened, e, before⟩
        ([Token.comma].intercalate (Tree.memberTokens members) ++ .closeObject :: rest) =
      (deliver opened ((Tree.memberStrings members).reverse ++ before)
        (.obj (done.reverse ++ members))).after rest := by
  induction members generalizing e done key before with
  | nil => exact absurd rfl hsome
  | cons m members ih =>
    obtain ⟨name, t⟩ := m
    obtain ⟨ht, hmembers⟩ := List.forall_mem_cons.mp h
    have hkey : ∀ us : List Token, run ⟨.object done key :: opened, e, before⟩
        (.str name :: .colon :: (t.tokens ++ us)) =
          run ⟨.object ((name, t) :: done) "" :: opened, .separator,
            name :: (t.strings.reverse ++ before)⟩ us := by
      intro us
      have hfirst : shift ⟨.object done key :: opened, e, before⟩ (.str name) =
          .more ⟨.object done name :: opened, .colon, before⟩ := by
        rcases he with rfl | rfl <;> rfl
      rw [run_cons, hfirst]
      show run ⟨.object done name :: opened, .value, before⟩ (t.tokens ++ us) = _
      rw [ht (.object done name :: opened) _ _ .value hroom]
      rfl
    unfold Tree.memberStrings
    cases members with
    | nil =>
      unfold Tree.memberTokens Tree.memberTokens Tree.memberStrings
      rw [List.intercalate_singleton, List.cons_append, List.cons_append, hkey, run_cons]
      show (deliver opened _ (.obj ((name, t) :: done).reverse)).after rest = _
      rw [List.reverse_cons, List.reverse_append, List.append_assoc]
      rfl
    | cons m members =>
      have htokens : [Token.comma].intercalate (Tree.memberTokens ((name, t) :: m :: members)) =
          .str name :: .colon :: (t.tokens ++
            .comma :: [Token.comma].intercalate (Tree.memberTokens (m :: members))) := by
        show [Token.comma].intercalate ((.str name :: .colon :: t.tokens) ::
          (.str m.1 :: .colon :: m.2.tokens) :: Tree.memberTokens members) = _
        rw [List.intercalate_cons_cons, List.append_assoc, List.singleton_append]
        rfl
      rw [htokens, List.cons_append, List.cons_append, List.append_assoc, hkey, List.cons_append, run_cons]
      show run ⟨.object ((name, t) :: done) "" :: opened, .key, _⟩ _ = _
      rw [ih hmembers (List.cons_ne_nil _ _) (Or.inl rfl), List.reverse_append, List.reverse_cons,
        List.reverse_cons]
      simp only [List.append_assoc, List.cons_append, List.nil_append]

end Assembly

namespace Tree

open Json.Assembly

variable {n : Nat} {t : Tree}

/-- **The tokens of a tree are put together as the tree.** -/
theorem Plain.takes (h : Plain n t) : Takes n t.tokens t.strings t := by
  induction h with
  | null =>
    intro opened e before rest he _
    cases he <;> rfl
  | bool b =>
    intro opened e before rest he _
    cases he <;> rfl
  | int small =>
    intro opened e before rest he _
    cases he <;> rfl
  | str s =>
    intro opened e before rest he _
    cases he <;> rfl
  | @arr n items each ih =>
    intro opened e before rest he hroom
    have hopen : shift ⟨opened, e, before⟩ .openArray = .more ⟨.array [] :: opened, .valueOrClose, before⟩ := by
      have hlt : opened.length < depthMax := by omega
      cases he <;> exact if_pos hlt
    unfold tokens strings
    rw [List.cons_append, List.cons_append, run_cons, hopen, List.append_assoc]
    show run ⟨.array [] :: opened, .valueOrClose, before⟩ _ = _
    cases items with
    | nil => rfl
    | cons t items => exact run_items ih (List.cons_ne_nil _ _) (by omega) .valueOrClose [] before rest
  | @obj n members each ih =>
    intro opened e before rest he hroom
    have hopen : shift ⟨opened, e, before⟩ .openObject =
        .more ⟨.object [] "" :: opened, .keyOrClose, before⟩ := by
      have hlt : opened.length < depthMax := by omega
      cases he <;> exact if_pos hlt
    unfold tokens strings
    rw [List.cons_append, List.cons_append, run_cons, hopen, List.append_assoc]
    show run ⟨.object [] "" :: opened, .keyOrClose, before⟩ _ = _
    cases members with
    | nil => rfl
    | cons m members =>
      exact run_members ih (List.cons_ne_nil _ _) (by omega) (Or.inr rfl) [] "" before rest

/-- A plain tree that is not too deep is read back from its text. -/
theorem Plain.ofText_text (h : Plain depthMax t) : Reading.ofText t.text = ⟨t.strings, some t⟩ := by
  unfold Reading.ofText
  have hrun := h.takes [] [] [] .value (Nat.le_of_eq (Nat.zero_add _))
  rw [List.append_nil] at hrun
  rw [h.tokens_text, hrun, List.append_nil]
  show Reading.mk t.strings.reverse.reverse (some t) = _
  rw [List.reverse_reverse]

mutual

/-- A number that is not finite is written as `null`. -/
theorem text_settled (t : Tree) : t.settled.text = t.text := by
  match t with
  | .null | .bool _ | .int _ | .str _ => rfl
  | .num x =>
    unfold settled
    cases hx : x.exact with
    | finite => rfl
    | nan | infinite =>
      show "null" = floatText x
      unfold floatText
      rw [hx]
  | .arr items =>
    unfold settled text
    rw [texts_settled items]
  | .obj members =>
    unfold settled text
    rw [memberTexts_settled members]

theorem texts_settled (items : List Tree) : texts (settledEach items) = texts items := by
  match items with
  | [] => rfl
  | t :: rest =>
    unfold settledEach texts
    rw [text_settled t, texts_settled rest]

theorem memberTexts_settled (members : List (String × Tree)) :
    memberTexts (settledMembers members) = memberTexts members := by
  match members with
  | [] => rfl
  | (name, t) :: rest =>
    unfold settledMembers memberTexts
    rw [text_settled t, memberTexts_settled rest]

end

end Tree

/-- **The library that runs** writes what it reads back. -/
theorem lawful_standard : @Lawful standard := @Lawful.mk standard Tree.text_settled fun _ => Tree.Plain.ofText_text

end EditableLisp.Json
