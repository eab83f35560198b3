import EditableLisp.Proofs.Numerals
import EditableLisp.Proofs.Rereading
import EditableLisp.Proofs.Session

/-!
# What the reader accepts

A `Derivation` is a parse tree over tokens: a name or number, a string, a mark and a form, or a collection of
forms in brackets. `Derivation.Valid` says that it follows the grammar

* `program ::= form*`
* `form ::= atom | string | mark form | '(' form* ')' | '[' form* ']' | '{' (key form)* '}'`

where an atom is not a colon alone and is a literal if it looks like a number, and the keys of a map are
keywords and strings of pairwise different names.

Tokens have at most one row of derivations (`Derivation.eq_of_tokensEach`). A derivation follows the grammar
exactly if a form is assembled along it (`Builds.valid`, `Valid.exists_builds`). **`Session.readProgram_iff`**:
a text is read exactly if it has derivations, and the value that is read is their tree.
-/

namespace EditableLisp

/-! ## Derivations -/

/-- How a form is made of tokens. -/
inductive Derivation where
  | atom (t : Token)
  | string (t : Token)
  | sugar (mark : Token) (form : Derivation)
  | collection (opening : Token) (forms : List Derivation) (closing : Token)

namespace Derivation

mutual

/-- The tokens of a derivation, from left to right. -/
def tokens : Derivation → List Token
  | atom t => [t]
  | string t => [t]
  | sugar mark form => mark :: tokens form
  | collection opening forms closing => opening :: (tokensEach forms ++ [closing])

/-- The tokens of derivations in a row. -/
def tokensEach : List Derivation → List Token
  | [] => []
  | form :: rest => tokens form ++ tokensEach rest

end

/-- A derivation is a key of a name: a keyword, or a string with the name as its content. -/
inductive KeyName : Derivation → String → Prop where
  | keyword {t : Token} {name : String} : t.lexeme = ":" ++ name → KeyName (atom t) name
  | string {t : Token} {name : String} : t.kind = .text name → KeyName (string t) name

/-- Derivations are keys of some names and forms in turn. -/
inductive KeyNames : List Derivation → List String → Prop where
  | nil : KeyNames [] []
  | cons {key form : Derivation} {rest : List Derivation} {name : String} {names : List String} :
      KeyName key name → KeyNames rest names → KeyNames (key :: form :: rest) (name :: names)

/-- A derivation follows the grammar. -/
inductive Valid : Derivation → Prop where
  | atom {t : Token} : t.kind = .atom → t.lexeme ≠ ":" →
      (Number.looksNumeric t.lexeme.toList → Number.IsLiteral t.lexeme.toList) → Valid (atom t)
  | string {t : Token} {content : String} : t.kind = .text content → Valid (string t)
  | sugar {t : Token} {style : Style} {form : Derivation} : t.kind = .mark style → Valid form →
      Valid (sugar t form)
  | collection {opening closing : Token} {b : Bracket} {forms : List Derivation} :
      opening.kind = .opening b → (∀ form ∈ forms, Valid form) → closing.kind = .closing b →
      (b = .curly → ∃ names, KeyNames forms names ∧ names.Nodup) →
      Valid (collection opening forms closing)

/-! ## One derivation -/

/-- What may follow a row of forms: nothing, or a closing bracket. -/
def EndsRow (ts : List Token) : Prop := ∀ t ∈ ts.head?, ∃ b, t.kind = .closing b

/-- A form does not start with a closing bracket. -/
theorem Valid.exists_head {d : Derivation} (h : d.Valid) :
    ∃ t ts, d.tokens = t :: ts ∧ ∀ b, t.kind ≠ .closing b := by
  cases h with
  | @atom t hk =>
    refine ⟨t, [], rfl, fun b => ?_⟩
    rw [hk]
    nofun
  | @string t content hk =>
    refine ⟨t, [], rfl, fun b => ?_⟩
    rw [hk]
    nofun
  | @sugar t style form hk =>
    refine ⟨t, form.tokens, rfl, fun b => ?_⟩
    rw [hk]
    nofun
  | @collection o c b forms hk =>
    refine ⟨o, tokensEach forms ++ [c], rfl, fun b => ?_⟩
    rw [hk]
    nofun

theorem not_endsRow {d : Derivation} (h : d.Valid) (rest : List Token) : ¬ EndsRow (d.tokens ++ rest) := by
  obtain ⟨t, ts, ht, hk⟩ := h.exists_head
  intro hrow
  rw [ht] at hrow
  obtain ⟨b, hb⟩ := hrow t rfl
  exact hk b hb

/-- Rows of forms are the same if their tokens are, as far as this holds of each form. -/
theorem eq_of_tokensEach_append {ds ds' : List Derivation}
    (ih : ∀ d ∈ ds, ∀ d' rest rest', Valid d' → d.tokens ++ rest = d'.tokens ++ rest' →
      d = d' ∧ rest = rest')
    (hv : ∀ d ∈ ds, Valid d) (hv' : ∀ d ∈ ds', Valid d) {rest rest' : List Token} (hr : EndsRow rest)
    (hr' : EndsRow rest') (he : tokensEach ds ++ rest = tokensEach ds' ++ rest') :
    ds = ds' ∧ rest = rest' := by
  induction ds generalizing ds' with
  | nil =>
    cases ds' with
    | nil => exact ⟨rfl, he⟩
    | cons d' ds' =>
      have he : rest = tokens d' ++ tokensEach ds' ++ rest' := he
      rw [he, List.append_assoc] at hr
      exact absurd hr (not_endsRow (hv' d' List.mem_cons_self) _)
  | cons d ds ihrow =>
    obtain ⟨hd, hds⟩ := List.forall_mem_cons.mp hv
    obtain ⟨ihd, ihds⟩ := List.forall_mem_cons.mp ih
    cases ds' with
    | nil =>
      have he : tokens d ++ tokensEach ds ++ rest = rest' := he
      rw [← he, List.append_assoc] at hr'
      exact absurd hr' (not_endsRow hd _)
    | cons d' ds' =>
      obtain ⟨hd', hds'⟩ := List.forall_mem_cons.mp hv'
      have he : tokens d ++ tokensEach ds ++ rest = tokens d' ++ tokensEach ds' ++ rest' := he
      rw [List.append_assoc, List.append_assoc] at he
      obtain ⟨rfl, hrow⟩ := ihd d' _ _ hd' he
      obtain ⟨rfl, rfl⟩ := ihrow ihds hds hds' hrow
      exact ⟨rfl, rfl⟩

theorem endsRow_nil : EndsRow [] := by
  rintro _ ⟨⟩

/-- A closing bracket ends a row. -/
theorem endsRow_cons {t : Token} {b : Bracket} (h : t.kind = .closing b) (ts : List Token) :
    EndsRow (t :: ts) := by
  rintro _ ⟨⟩
  exact ⟨b, h⟩

/-- **The tokens of a form determine its derivation and where it ends.** -/
theorem Valid.eq_of_tokens_append {d d' : Derivation} (h : d.Valid) (h' : d'.Valid)
    {rest rest' : List Token} (he : d.tokens ++ rest = d'.tokens ++ rest') : d = d' ∧ rest = rest' := by
  induction h generalizing d' rest rest' with
  | @atom t hk =>
    cases h' with
    | atom =>
      cases he
      exact ⟨rfl, rfl⟩
    | string hk' | sugar hk' | collection hk' =>
      cases he
      rw [hk] at hk'
      cases hk'
  | @string t content hk =>
    cases h' with
    | string =>
      cases he
      exact ⟨rfl, rfl⟩
    | atom hk' | sugar hk' | collection hk' =>
      cases he
      rw [hk] at hk'
      cases hk'
  | @sugar t style form hk _ ih =>
    cases h' with
    | sugar hk' hform =>
      obtain ⟨rfl, htail⟩ := List.cons.inj he
      obtain ⟨rfl, rfl⟩ := ih hform htail
      exact ⟨rfl, rfl⟩
    | atom hk' | string hk' | collection hk' =>
      obtain ⟨rfl, -⟩ := List.cons.inj he
      rw [hk] at hk'
      cases hk'
  | @collection o c b forms hk hv hc _ ih =>
    cases h' with
    | @collection o' c' b' forms' hk' hv' hc' _ =>
      obtain ⟨rfl, htail⟩ := List.cons.inj he
      have htail : tokensEach forms ++ [c] ++ rest = tokensEach forms' ++ [c'] ++ rest' := htail
      rw [List.append_assoc, List.append_assoc] at htail
      obtain ⟨rfl, hrest⟩ := eq_of_tokensEach_append (fun d hd d' rest rest' hd' => ih d hd hd') hv hv'
        (endsRow_cons hc _) (endsRow_cons hc' _) htail
      obtain ⟨rfl, rfl⟩ := List.cons.inj hrest
      exact ⟨rfl, rfl⟩
    | atom hk' | string hk' | sugar hk' =>
      obtain ⟨rfl, -⟩ := List.cons.inj he
      rw [hk] at hk'
      cases hk'

/-- **Tokens have at most one row of derivations.** -/
theorem eq_of_tokensEach {ds ds' : List Derivation} (h : ∀ d ∈ ds, Valid d) (h' : ∀ d ∈ ds', Valid d)
    (he : tokensEach ds = tokensEach ds') : ds = ds' := by
  have hrow : tokensEach ds ++ [] = tokensEach ds' ++ [] := by rw [he]
  exact (eq_of_tokensEach_append (fun d hd d' rest rest' hd' => (h d hd).eq_of_tokens_append hd') h h'
    endsRow_nil endsRow_nil hrow).1

/-! ## Forms of derivations -/

/-- A derivation and the form that is assembled along it. -/
inductive Builds : Derivation → Form → Prop where
  | atom {t : Token} {form : Form} : t.kind = .atom → Form.ofAtom t.lexeme = .ok form →
      Builds (atom t) form
  | string {t : Token} {content : String} : t.kind = .text content →
      Builds (string t) (.text content t.lexeme)
  | sugar {t : Token} {style : Style} {d : Derivation} {form : Form} : t.kind = .mark style →
      Builds d form → Builds (sugar t d) (.marked style (Token.lead d.tokens) form)
  | collection {opening closing : Token} {b : Bracket} {parts : List (Derivation × Form)} {form : Form} :
      opening.kind = .opening b → (∀ p ∈ parts, Builds p.1 p.2) → closing.kind = .closing b →
      Assembly.close b (parts.map (fun p => Token.lead p.1.tokens) ++ [closing.blank])
        (parts.map Prod.snd) = .ok form →
      Builds (collection opening (parts.map Prod.fst) closing) form

/-- The tokens of a derivation with its form. -/
def toRun (p : Derivation × Form) : Run := ⟨p.1.tokens, p.2⟩

theorem allTokens_toRun (parts : List (Derivation × Form)) :
    Run.allTokens (parts.map toRun) = tokensEach (parts.map Prod.fst) := by
  induction parts with
  | nil => rfl
  | cons p rest ih =>
    show p.1.tokens ++ Run.allTokens (rest.map toRun) = p.1.tokens ++ tokensEach (rest.map Prod.fst)
    rw [ih]

theorem gaps_toRun (parts : List (Derivation × Form)) :
    Run.gaps (parts.map toRun) = parts.map fun p => Token.lead p.1.tokens := List.map_map

theorem forms_toRun (parts : List (Derivation × Form)) :
    Run.forms (parts.map toRun) = parts.map Prod.snd := List.map_map

/-- The form of a derivation is made of its tokens. -/
theorem Builds.derives {d : Derivation} {form : Form} (h : Builds d form) : Derives d.tokens form := by
  induction h with
  | atom hk hf => exact .atom hk hf
  | string hk => exact .text hk
  | sugar hk _ ih => exact .marked hk ih
  | @collection o c b parts form ho _ hc hclose ih =>
    rw [← gaps_toRun, ← forms_toRun] at hclose
    have h := Derives.collection ho (List.forall_mem_map.mpr ih) hc hclose
    rw [allTokens_toRun] at h
    exact h

/-- Derivations with their forms for forms with their tokens. -/
theorem exists_parts_of_exists {runs : List Run}
    (h : ∀ r ∈ runs, ∃ d : Derivation, d.tokens = r.tokens ∧ Builds d r.form) :
    ∃ parts : List (Derivation × Form), (∀ p ∈ parts, Builds p.1 p.2) ∧ parts.map toRun = runs := by
  obtain ⟨pairs, rfl, hpairs⟩ := exists_pairs h
  refine ⟨pairs.map fun p => (p.2, p.1.form), List.forall_mem_map.mpr fun p hp => (hpairs p hp).2, ?_⟩
  rw [List.map_map]
  refine List.map_congr_left fun p hp => ?_
  show (⟨p.2.tokens, p.1.form⟩ : Run) = p.1
  rw [(hpairs p hp).1]

/-- **What is derived is derived along a tree.** -/
theorem exists_builds {ts : List Token} {form : Form} (h : Derives ts form) :
    ∃ d : Derivation, d.tokens = ts ∧ Builds d form := by
  induction h with
  | @text t content hk => exact ⟨string t, rfl, .string hk⟩
  | @atom t form hk hf => exact ⟨atom t, rfl, .atom hk hf⟩
  | @marked t style ts form hk _ ih =>
    obtain ⟨d, rfl, hd⟩ := ih
    exact ⟨sugar t d, rfl, .sugar hk hd⟩
  | @collection o c b runs form ho _ hc hclose ih =>
    obtain ⟨parts, hparts, rfl⟩ := exists_parts_of_exists ih
    rw [gaps_toRun, forms_toRun] at hclose
    refine ⟨collection o (parts.map Prod.fst) c, ?_, .collection ho hparts hc hclose⟩
    rw [allTokens_toRun]
    rfl

/-! ## Atoms and keys -/

/-- A word has a form exactly if it is not a colon alone and is a literal if it looks like a number. -/
theorem exists_ofAtom_iff {text : String} : (∃ form, Form.ofAtom text = .ok form) ↔
    text ≠ ":" ∧ (Number.looksNumeric text.toList → Number.IsLiteral text.toList) := by
  have hliteral : (Number.ofString? text).isSome ↔ Number.IsLiteral text.toList := by
    rw [Number.ofString?, Option.isSome_map, Number.isSome_ofChars?_iff]
  constructor
  · rintro ⟨form, hf⟩
    cases Form.ofAtom_iff.mp hf with
    | nil => exact ⟨by decide, fun h => absurd h (by decide)⟩
    | bool b => cases b <;> exact ⟨by decide, fun h => absurd h (by decide)⟩
    | @keyword name hn =>
      refine ⟨fun h => hn (String.append_right_inj ":" |>.mp h), fun h => ?_⟩
      rw [Form.toList_keyword, Form.looksNumeric_colon] at h
      cases h
    | num hn hx =>
      refine ⟨?_, fun _ => hliteral.mp (Option.isSome_of_eq_some hx)⟩
      rintro rfl
      exact absurd hn (by decide)
    | symbol _ hcolon hn =>
      refine ⟨?_, fun h => absurd h hn⟩
      rintro rfl
      exact hcolon rfl
  · rintro ⟨hcolon, hnumeric⟩
    by_cases hword : text ∈ ["nil", "true", "false"]
    · simp only [List.mem_cons, List.not_mem_nil, or_false] at hword
      rcases hword with rfl | rfl | rfl <;> exact ⟨_, rfl⟩
    · by_cases hhead : text.toList.head? = some ':'
      · obtain ⟨cs, hl⟩ := List.head?_eq_some_iff.mp hhead
        obtain rfl : text = ":" ++ String.ofList cs := by
          rw [← String.toList_inj, hl, Form.toList_keyword, String.toList_ofList]
        exact ⟨_, Form.ofAtom_iff.mpr (.keyword fun h => hcolon (by rw [h]; rfl))⟩
      · by_cases hn : Number.looksNumeric text.toList
        · obtain ⟨x, hx⟩ := Option.isSome_iff_exists.mp (hliteral.mpr (hnumeric hn))
          exact ⟨_, Form.ofAtom_iff.mpr (.num hn hx)⟩
        · exact ⟨_, Form.ofAtom_iff.mpr (.symbol hword hhead hn)⟩

/-- Brackets are closed to a collection, which is no key. -/
theorem close_ne_key {b : Bracket} {gaps : List String} {forms : List Form} (key : FormKey) :
    Assembly.close b gaps forms ≠ .ok key.toForm := by
  intro h
  cases b with
  | round | square => cases key <;> cases h
  | curly =>
    obtain ⟨entries, hform, -⟩ := exists_entries_of_close h
    cases key <;> cases hform

/-- The form of a key has the name of the key. -/
theorem Builds.keyName {d : Derivation} {key : FormKey} (h : Builds d key.toForm) : KeyName d key.name := by
  generalize he : key.toForm = form at h
  cases h with
  | @atom t _ hk hf =>
    subst he
    cases key with
    | keyword name => exact .keyword (Form.source_ofAtom hf).symm
    | text content spelling => exact absurd hf (Form.ofAtom_ne_text _ content spelling)
  | @string t content hk =>
    cases key with
    | keyword name => cases he
    | text content' spelling =>
      cases he
      exact .string hk
  | sugar => cases key <;> cases he
  | collection _ _ _ hclose =>
    subst he
    exact absurd hclose (close_ne_key key)

/-- The form of a derivation that is a key is one. -/
theorem KeyName.exists_key {d : Derivation} {name : String} {form : Form} (h : KeyName d name)
    (hb : Builds d form) : ∃ key : FormKey, key.toForm = form ∧ key.name = name := by
  cases h with
  | @keyword t name hl =>
    cases hb with
    | atom hk hf =>
      rw [hl, Form.ofAtom_keyword] at hf
      split at hf
      · cases hf
      · cases hf
        exact ⟨.keyword name, rfl, rfl⟩
  | @string t name hk =>
    cases hb with
    | @string t content hk' =>
      rw [hk] at hk'
      cases hk'
      exact ⟨.text name t.lexeme, rfl, rfl⟩

theorem keyNames_of_entryForms {parts : List (Derivation × Form)} (hp : ∀ p ∈ parts, Builds p.1 p.2)
    {entries : List (FormKey × Form)} (h : Form.entryForms entries = parts.map Prod.snd) :
    KeyNames (parts.map Prod.fst) (entries.map fun e => e.1.name) := by
  induction entries generalizing parts with
  | nil =>
    obtain rfl := List.map_eq_nil_iff.mp h.symm
    exact .nil
  | cons e rest ih =>
    have h : e.1.toForm :: e.2 :: Form.entryForms rest = parts.map Prod.snd := h
    match parts, h with
    | [_], h => cases (List.cons.inj h).2
    | key :: value :: parts, h =>
      obtain ⟨hkey, htail⟩ := List.cons.inj h
      obtain ⟨-, hrest⟩ := List.cons.inj htail
      obtain ⟨hk, hv⟩ := List.forall_mem_cons.mp hp
      rw [← hkey] at hk
      exact .cons hk.keyName (ih (List.forall_mem_cons.mp hv).2 hrest)

theorem KeyNames.exists_entries {ds : List Derivation} {names : List String} (h : KeyNames ds names)
    {parts : List (Derivation × Form)} (hd : parts.map Prod.fst = ds) (hp : ∀ p ∈ parts, Builds p.1 p.2) :
    ∃ entries, Form.entryForms entries = parts.map Prod.snd ∧ (entries.map fun e => e.1.name) = names := by
  induction h generalizing parts with
  | nil =>
    obtain rfl := List.map_eq_nil_iff.mp hd
    exact ⟨[], rfl, rfl⟩
  | @cons key form rest name names hkey _ ih =>
    match parts, hd with
    | k :: v :: parts, hd =>
      obtain ⟨rfl, htail⟩ := List.cons.inj hd
      obtain ⟨rfl, hrest⟩ := List.cons.inj htail
      obtain ⟨hk, hv⟩ := List.forall_mem_cons.mp hp
      obtain ⟨key, hto, rfl⟩ := hkey.exists_key hk
      obtain ⟨entries, hforms, rfl⟩ := ih hrest (List.forall_mem_cons.mp hv).2
      refine ⟨(key, v.2) :: entries, ?_, rfl⟩
      show key.toForm :: v.2 :: Form.entryForms entries = k.2 :: v.2 :: parts.map Prod.snd
      rw [hto, hforms]

/-- **A derivation that has a form follows the grammar.** -/
theorem Builds.valid {d : Derivation} {form : Form} (h : Builds d form) : d.Valid := by
  induction h with
  | @atom t form hk hf =>
    obtain ⟨hcolon, hliteral⟩ := exists_ofAtom_iff.mp ⟨form, hf⟩
    exact .atom hk hcolon hliteral
  | string hk => exact .string hk
  | sugar hk _ ih => exact .sugar hk ih
  | @collection o c b parts form ho hp hc hclose ih =>
    refine .collection ho (List.forall_mem_map.mpr ih) hc ?_
    rintro rfl
    obtain ⟨entries, -, hforms, hnodup⟩ := exists_entries_of_close hclose
    exact ⟨_, keyNames_of_entryForms hp hforms, hnodup⟩

/-- **A derivation that follows the grammar has a form.** -/
theorem Valid.exists_builds {d : Derivation} (h : d.Valid) : ∃ form, Builds d form := by
  induction h with
  | @atom t hk hcolon hliteral =>
    obtain ⟨form, hf⟩ := exists_ofAtom_iff.mpr ⟨hcolon, hliteral⟩
    exact ⟨form, .atom hk hf⟩
  | @string t content hk => exact ⟨_, .string hk⟩
  | sugar hk _ ih =>
    obtain ⟨form, hf⟩ := ih
    exact ⟨_, .sugar hk hf⟩
  | @collection o c b forms ho _ hc hkeys ih =>
    obtain ⟨parts, rfl, hp⟩ := exists_pairs ih
    cases b with
    | round => exact ⟨_, .collection ho hp hc rfl⟩
    | square => exact ⟨_, .collection ho hp hc rfl⟩
    | curly =>
      obtain ⟨names, hnames, hnodup⟩ := hkeys rfl
      obtain ⟨entries, hforms, rfl⟩ := hnames.exists_entries rfl hp
      have hclose := @Form.close_map (parts.map (fun p => Token.lead p.1.tokens) ++ [c.blank]) _ hnodup
      rw [hforms] at hclose
      exact ⟨_, .collection ho hp hc hclose⟩

/-! ## Trees -/

end Derivation

/-- A value is what a word stands for. -/
def Token.Denotes (w : World) (t : Token) : Value → Prop
  | .nil => t.lexeme = "nil"
  | .bool b => t.lexeme = if b then "true" else "false"
  | .keyword k => t.lexeme = ":" ++ k.name ∧ w.keywords[k.id]? = some k.name
  | .num x => Number.looksNumeric t.lexeme.toList ∧ Number.ofString? t.lexeme = some x
  | .symbol _ name => t.lexeme = name ∧ name ∉ ["nil", "true", "false"] ∧ name.toList.head? ≠ some ':' ∧
    ¬ Number.looksNumeric name.toList
  | _ => False

namespace Derivation

mutual

/-- A value is the tree of a derivation. -/
inductive IsTree (w : World) : Derivation → Value → Prop where
  | atom {t : Token} {v : Value} : t.Denotes w v → IsTree w (atom t) v
  | string {t : Token} {content : String} : t.kind = .text content → IsTree w (string t) (.text content)
  | sugar {t : Token} {form : Derivation} {node : Node} {head : NodeId} {v : Value} :
      t.kind = .mark node.style → IsTree w form v →
      IsTree w (sugar t form) (.seq .list node [.symbol head node.style.name, v])
  | list {opening closing : Token} {forms : List Derivation} {node : Node} {vs : List Value} :
      opening.kind = .opening .round → node.style = .plain → AreTrees w forms vs →
      IsTree w (collection opening forms closing) (.seq .list node vs)
  | vector {opening closing : Token} {forms : List Derivation} {node : Node} {vs : List Value} :
      opening.kind = .opening .square → node.style = .plain → AreTrees w forms vs →
      IsTree w (collection opening forms closing) (.seq .vector node vs)
  | map {opening closing : Token} {forms : List Derivation} {node : Node} {entries : Entries} :
      opening.kind = .opening .curly → node.style = .plain → AreTrees w forms (Entries.values entries) →
      IsTree w (collection opening forms closing) (.map node entries)

/-- Values are the trees of some derivations, one by one. -/
inductive AreTrees (w : World) : List Derivation → List Value → Prop where
  | nil : AreTrees w [] []
  | cons {d : Derivation} {ds : List Derivation} {v : Value} {vs : List Value} : IsTree w d v →
      AreTrees w ds vs → AreTrees w (d :: ds) (v :: vs)

end

variable {R : Registry} {w : World}

/-- What represents the form of a word is what the word stands for. -/
theorem denotes_of_represents (hw : R.Ok w) {t : Token} {form : Form} (hf : Form.ofAtom t.lexeme = .ok form)
    {v : Value} (hv : R.Known v) (h : form.Represents v) : t.Denotes w v := by
  generalize hl : t.lexeme = text at hf
  cases Form.ofAtom_iff.mp hf with
  | nil | bool =>
    obtain rfl := h
    exact hl
  | keyword =>
    obtain ⟨id, rfl⟩ := h
    exact ⟨hl, (hw.keywords id).trans hv⟩
  | num hn hx =>
    obtain rfl := h
    subst hl
    exact ⟨hn, hx⟩
  | symbol hword hcolon hn =>
    obtain ⟨id, rfl⟩ := h
    exact ⟨hl, hword, hcolon, hn⟩

theorem areTrees_of_represents {parts : List (Derivation × Form)}
    (h : ∀ p ∈ parts, ∀ v, R.Known v → p.2.Represents v → IsTree w p.1 v) {vs : List Value}
    (hk : R.AllKnown vs) (hr : Form.RepresentsEach (parts.map Prod.snd) vs) :
    AreTrees w (parts.map Prod.fst) vs := by
  induction parts generalizing vs with
  | nil =>
    obtain rfl := hr
    exact .nil
  | cons p rest ih =>
    obtain ⟨hp, hrest⟩ := List.forall_mem_cons.mp h
    obtain ⟨x, xs, hx, hxs, rfl⟩ := hr
    obtain ⟨hkx, hkxs⟩ := Registry.allKnown_cons.mp hk
    exact .cons (hp x hkx hx) (ih hrest hkxs hxs)

/-- **A value that represents the form of a derivation is its tree.** -/
theorem Builds.isTree (hw : R.Ok w) {d : Derivation} {form : Form} (h : Builds d form) {v : Value}
    (hv : R.Known v) (hr : form.Represents v) : IsTree w d v := by
  induction h generalizing v with
  | atom _ hf => exact .atom (denotes_of_represents hw hf hv hr)
  | string hk =>
    obtain rfl := hr
    exact .string hk
  | @sugar t style d form hk _ ih =>
    obtain ⟨id, head, x, hx, rfl⟩ := hr
    have hparts : R.AllKnown [.symbol head style.name, x] := hw.partsKnown hv
    exact @IsTree.sugar _ t d ⟨id, style, _, _⟩ head x hk (ih (hparts x (by simp)) hx)
  | @collection o c b parts form ho _ hc hclose ih =>
    have htrees : ∀ p ∈ parts, ∀ v, R.Known v → p.2.Represents v → IsTree w p.1 v :=
      fun p hp v => ih p hp
    cases b with
    | round =>
      cases hclose
      obtain ⟨id, vs, hvs, rfl⟩ := hr
      exact .list ho rfl (areTrees_of_represents htrees (hw.partsKnown hv) hvs)
    | square =>
      cases hclose
      obtain ⟨id, vs, hvs, rfl⟩ := hr
      exact .vector ho rfl (areTrees_of_represents htrees (hw.partsKnown hv) hvs)
    | curly =>
      obtain ⟨entries, rfl, hforms, -⟩ := exists_entries_of_close hclose
      obtain ⟨id, es, hes, rfl⟩ := hr
      have hall : R.AllKnown (Entries.values es) := Session.entriesKnown_values (hw.partsKnown hv).2
      have heach := hes.each
      rw [hforms] at heach
      exact .map ho rfl (areTrees_of_represents htrees hall heach)

/-! ## Programs -/

/-- Derivations of a text: the text can be cut into tokens, and these are the tokens of the derivations. -/
def AreOf (ds : List Derivation) (src : String) : Prop :=
  ∃ scanned, Token.scan src = .ok scanned ∧ scanned.tokens = tokensEach ds ∧ ∀ d ∈ ds, d.Valid

/-- **A text has at most one row of derivations.** -/
theorem AreOf.unique {ds ds' : List Derivation} {src : String} (h : AreOf ds src) (h' : AreOf ds' src) :
    ds = ds' := by
  obtain ⟨scanned, hscan, htokens, hv⟩ := h
  obtain ⟨scanned', hscan', htokens', hv'⟩ := h'
  rw [hscan] at hscan'
  cases hscan'
  exact eq_of_tokensEach hv hv' (htokens.symm.trans htokens')

/-- The forms of a program are built by derivations of its text. -/
theorem exists_builds_of_ofSource {src : String} {p : Program} (h : Program.ofSource src = .ok p) :
    ∃ parts : List (Derivation × Form), (∀ part ∈ parts, Builds part.1 part.2) ∧
      AreOf (parts.map Prod.fst) src ∧ p.forms = parts.map Prod.snd := by
  obtain ⟨scanned, runs, hscan, htokens, hruns, rfl⟩ := derives_ofSource h
  obtain ⟨parts, hparts, rfl⟩ := exists_parts_of_exists fun r hr => exists_builds (hruns r hr)
  refine ⟨parts, hparts, ⟨scanned, hscan, ?_, List.forall_mem_map.mpr fun part hm => (hparts part hm).valid⟩,
    forms_toRun parts⟩
  rw [htokens, allTokens_toRun]

/-- A text that has derivations is a program. -/
theorem AreOf.exists_ofSource {ds : List Derivation} {src : String} (h : AreOf ds src) :
    ∃ p, Program.ofSource src = .ok p := by
  obtain ⟨⟨tokens, tail, size⟩, hscan, rfl, hv⟩ := h
  obtain ⟨parts, rfl, hparts⟩ := exists_pairs fun d hd => (hv d hd).exists_builds
  rw [← allTokens_toRun] at hscan
  exact ⟨_, Program.ofSource_of_derives hscan (List.forall_mem_map.mpr fun part hm => (hparts part hm).derives)⟩

end Derivation

namespace Session

/-- **The reader accepts exactly the texts that have derivations, and builds their trees.** -/
theorem readProgram_iff {s : Session} (hs : s.Reachable) (src : String) :
    ((∃ v w, EditableLisp.readProgram src s.world = (.ok v, w)) ↔ ∃ ds, Derivation.AreOf ds src) ∧
      (∀ ds ds', Derivation.AreOf ds src → Derivation.AreOf ds' src → ds = ds') ∧
      ∀ v w ds, EditableLisp.readProgram src s.world = (.ok v, w) → Derivation.AreOf ds src →
        ∃ node vs, node.style = .program ∧ v = .seq .list node vs ∧ Derivation.AreTrees w ds vs := by
  obtain ⟨R, hsound⟩ := hs.exists_sound
  obtain ⟨R', -, hdone⟩ := keeps_readProgram src s.world hsound.world
  have hread : ∀ v w, EditableLisp.readProgram src s.world = (.ok v, w) →
      R'.Ok w ∧ R'.Known v ∧ ∃ p, Program.ofSource src = .ok p ∧ p.Represents v := by
    intro v w he
    rw [lift_of_eq he] at hdone
    exact ⟨hdone.1, hdone.2 v rfl⟩
  refine ⟨⟨?_, ?_⟩, fun _ _ => Derivation.AreOf.unique, fun v w ds he hds => ?_⟩
  · rintro ⟨v, w, he⟩
    obtain ⟨-, -, p, hp, -⟩ := hread v w he
    obtain ⟨parts, -, hof, -⟩ := Derivation.exists_builds_of_ofSource hp
    exact ⟨_, hof⟩
  · rintro ⟨ds, hds⟩
    obtain ⟨p, hp⟩ := hds.exists_ofSource
    exact readProgram_of_ofSource hp s.world
  · obtain ⟨hok, hknown, p, hp, id, vs, hvs, rfl⟩ := hread v w he
    obtain ⟨parts, hparts, hof, hforms⟩ := Derivation.exists_builds_of_ofSource hp
    obtain rfl := hds.unique hof
    rw [hforms] at hvs
    exact ⟨_, vs, rfl, rfl, Derivation.areTrees_of_represents
      (fun part hm v hv hr => (hparts part hm).isTree hok hv hr) (hok.partsKnown hknown) hvs⟩

/-- A text is read as a program. -/
def isRead (src : String) (w : World) : Bool :=
  match EditableLisp.readProgram src w with
  | (.ok _, _) => true
  | _ => false

/-- A map with a quoted name has derivations and is read as their trees. With the same name written in two
ways it has none. -/
theorem readProgram_map_quote : (∃ ds v w, Derivation.AreOf ds "\x7b:a 'x\x7d" ∧
    EditableLisp.readProgram "\x7b:a 'x\x7d" World.initial = (.ok v, w) ∧
      ∃ node vs, node.style = .program ∧ v = .seq .list node vs ∧ Derivation.AreTrees w ds vs) ∧
    ¬ ∃ ds, Derivation.AreOf ds "\x7b:a 'x \"a\" y\x7d" := by
  have test : isRead "\x7b:a 'x\x7d" World.initial = true := by decide +kernel
  have test' : isRead "\x7b:a 'x \"a\" y\x7d" World.initial = false := by decide +kernel
  unfold isRead at test test'
  split at test
  · rename_i v w hread
    obtain ⟨hiff, -, htree⟩ := readProgram_iff .bare "\x7b:a 'x\x7d"
    obtain ⟨ds, hds⟩ := hiff.mp ⟨v, w, hread⟩
    refine ⟨⟨ds, v, w, hds, hread, htree v w ds hread hds⟩, fun h => ?_⟩
    obtain ⟨v', w', hread'⟩ := (readProgram_iff .bare _).1.mpr h
    have hread' : EditableLisp.readProgram "\x7b:a 'x \"a\" y\x7d" World.initial = (.ok v', w') := hread'
    rw [hread'] at test'
    cases test'
  · cases test

end Session

end EditableLisp
