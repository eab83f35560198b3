import EditableLisp.Proofs.Counting

/-!
# Texts one after the other

`Program.ofSource_join`: two texts that are programs, with a line break between them, are one program, with the
forms of the first and then those of the second. The line break ends a comment and a name at the end of the
first text, and a text that is a program leaves nothing else open.
-/

namespace EditableLisp

/-! ## Gaps -/

namespace Token

/-- A line break ends a comment. -/
theorem Gap.push_newline {inside : Bool} {g : String} (h : Gap inside g) : Gap false (g.push '\n') := by
  cases inside with
  | false => exact h.blank (by decide)
  | true => exact h.line

theorem Gap.append {inside : Bool} {g g' : String} (h : Gap false g) (h' : Gap inside g') :
    Gap inside (g ++ g') := by
  have hpush : ∀ (g' : String) (c : Char), g ++ g'.push c = (g ++ g').push c := by
    intro g' c
    simp only [← String.append_singleton, String.append_assoc]
  induction h' with
  | empty => simpa using h
  | blank _ hc ih => exact hpush _ _ ▸ ih.blank hc
  | semicolon _ ih => exact hpush _ _ ▸ ih.semicolon
  | comment _ hc ih => exact hpush _ _ ▸ ih.comment hc
  | line _ ih => exact hpush _ _ ▸ ih.line

/-- Nothing runs on over a gap. -/
theorem Gap.runsOn_append {inside : Bool} {g : String} (h : Gap inside g) (hne : g.toList ≠ [])
    (left right : String) : runsOn left (g ++ right) = false :=
  runsOn_of_head (fun _ hc => (h.head (head?_append hne right ▸ hc)).1) left

/-- Two rows of texts do not run on if there is a gap between them. -/
theorem apart_join {gaps gaps' texts texts' : List String} (hlen : gaps.length = texts.length)
    {middle lead : String} (hm : ∀ left right, runsOn left (middle ++ right) = false)
    (h : apart gaps texts) (h' : apart (lead :: gaps') texts') :
    apart (gaps ++ middle :: gaps') (texts ++ texts') := by
  induction texts generalizing gaps with
  | nil =>
    obtain rfl : gaps = [] := List.length_eq_zero_iff.mp hlen
    cases texts' with
    | nil => rfl
    | cons left rest =>
      -- the gap before the first text does not matter
      cases rest <;> exact h'
  | cons left rest ih =>
    match gaps, rest, hlen with
    | [gap], [], _ =>
      cases texts' with
      | nil => rfl
      | cons right rest => exact apart_cons.mpr ⟨hm left right, ih rfl rfl⟩
    | gap :: gap' :: gaps, right :: rest, hlen =>
      obtain ⟨hrun, hrest⟩ := apart_cons.mp h
      exact apart_cons.mpr ⟨hrun, ih (Nat.succ.inj hlen) hrest⟩

end Token

/-! ## Programs -/

namespace Program

/-- **The tokens of a program that is read do not run together.** -/
theorem clear_ofSource {src : String} {p : Program} (h : ofSource src = .ok p) : p.Clear := by
  have hread : ofSource p.source = .ok p := by rw [source_ofSource h, h]
  exact (clear_of_nodes (writable_ofSource h) hread).2 rfl

/-- Two programs with a line break between them. -/
def join (p q : Program) : Program :=
  ⟨p.gaps.dropLast ++ (p.gaps.getLastD "" ++ "\n" ++ q.gaps.headD "") :: q.gaps.tail, p.forms ++ q.forms⟩

variable {p q : Program}

/-- What is written before some forms stands before their text. -/
theorem sourceItems_append (before done : String) (gaps : List String) (forms : List Form) :
    Form.sourceItems gaps (before ++ done) forms = before ++ Form.sourceItems gaps done forms := by
  induction forms generalizing gaps done with
  | nil => rfl
  | cons form rest ih =>
    unfold Form.sourceItems
    simp only [String.append_assoc, ih]

/-- Some forms with the gaps before them have a text, whatever comes after. -/
theorem exists_sourceItems {leads : List String} {forms : List Form} (h : leads.length = forms.length)
    (done : String) : ∃ text, ∀ (last : String) (gaps : List String) (more : List Form),
      Form.sourceItems (leads ++ last :: gaps).tail (done ++ (leads ++ last :: gaps).headD "") (forms ++ more) =
        Form.sourceItems gaps (text ++ last) more := by
  induction forms generalizing leads done with
  | nil =>
    obtain rfl : leads = [] := List.length_eq_zero_iff.mp h
    exact ⟨done, fun _ _ _ => rfl⟩
  | cons form rest ih =>
    obtain ⟨lead, leads, rfl⟩ := List.exists_cons_of_length_eq_add_one h
    exact ih (Nat.succ.inj h) (done ++ lead ++ form.source)

theorem IsWritable.exists_gaps (h : p.IsWritable) : ∃ leads last, p.gaps = leads ++ [last] ∧
    leads.length = p.forms.length ∧ (∀ gap ∈ leads, Token.Gap false gap) ∧ ∃ inside, Token.Gap inside last := by
  obtain ⟨hlength, hleads, hlast⟩ := h
  obtain hnil | ⟨leads, last, hgaps⟩ := List.eq_nil_or_concat p.gaps
  · simp [hnil] at hlength
  · rw [List.concat_eq_append] at hgaps
    rw [hgaps] at hlength hleads hlast
    simp only [List.length_append, List.length_singleton, Nat.add_right_cancel_iff] at hlength
    simp only [List.dropLast_concat, List.getLastD_concat] at hleads hlast
    exact ⟨leads, last, hgaps, hlength, hleads, hlast⟩

theorem IsWritable.exists_cons (h : q.IsWritable) : ∃ lead rest, q.gaps = lead :: rest :=
  List.exists_cons_of_length_eq_add_one h.length

/-- Joined programs have the texts of both, with a line break between them. -/
theorem source_join (hp : p.IsWritable) (hq : q.IsWritable) :
    (p.join q).source = p.source ++ "\n" ++ q.source := by
  obtain ⟨leads, last, hgaps, hlength, -⟩ := hp.exists_gaps
  obtain ⟨lead, rest, hgaps'⟩ := hq.exists_cons
  obtain ⟨text, htext⟩ := exists_sourceItems hlength ""
  have hsource : p.source = text ++ last := by
    have h := htext last [] []
    rwa [List.append_nil, String.empty_append, ← hgaps] at h
  have hjoin := htext (last ++ "\n" ++ lead) rest q.forms
  rw [String.empty_append] at hjoin
  have hmiddle : (p.join q).gaps = leads ++ (last ++ "\n" ++ lead) :: rest := by
    simp [join, hgaps, hgaps']
  have hall : (p.join q).source = Form.sourceItems rest (text ++ (last ++ "\n" ++ lead)) q.forms := by
    unfold source
    rw [hmiddle]
    exact hjoin
  have hsplit : text ++ (last ++ "\n" ++ lead) = text ++ last ++ "\n" ++ lead := by
    simp only [String.append_assoc]
  rw [hall, hsplit, sourceItems_append, hsource]
  unfold source
  rw [hgaps']
  rfl

/-- The gap between joined programs is blank text. -/
theorem gap_join {last lead : String} {inside inside' : Bool} (h : Token.Gap inside last)
    (h' : Token.Gap inside' lead) : Token.Gap inside' (last ++ "\n" ++ lead) := by
  have hnewline : last ++ String.singleton '\n' = last.push '\n' := String.append_singleton
  change Token.Gap inside' (last ++ String.singleton '\n' ++ lead)
  rw [hnewline]
  exact h.push_newline.append h'

/-- Joined programs can be written if both can. -/
theorem writable_join (hp : p.Writable) (hq : q.Writable) : (p.join q).Writable := by
  obtain ⟨leads, last, hgaps, hlength, hleads, inside, hlast⟩ := hp.gaps.exists_gaps
  obtain ⟨leads', last', hgaps', hlength', hleads', inside', hlast'⟩ := hq.gaps.exists_gaps
  refine ⟨?_, ?_, ?_⟩
  · cases leads' with
    | nil =>
      have hjoin : (p.join q).gaps = leads ++ [last ++ "\n" ++ last'] := by simp [join, hgaps, hgaps']
      refine ⟨?_, ?_, inside', ?_⟩ <;> rw [hjoin]
      · simp only [List.length_append, List.length_singleton, join, hlength, ← hlength', List.length_nil,
          Nat.add_zero]
      · simpa using hleads
      · simpa using gap_join hlast hlast'
    | cons lead rest =>
      have hjoin : (p.join q).gaps = (leads ++ (last ++ "\n" ++ lead) :: rest) ++ [last'] := by
        simp [join, hgaps, hgaps']
      obtain ⟨hlead, hrest⟩ := List.forall_mem_cons.mp hleads'
      refine ⟨?_, ?_, inside', ?_⟩ <;> rw [hjoin]
      · simp only [List.length_append, List.length_cons, List.length_nil, join, hlength, ← hlength']
      · rw [List.dropLast_concat]
        exact List.forall_mem_append.mpr ⟨hleads, List.forall_mem_cons.mpr ⟨gap_join hlast hlead, hrest⟩⟩
      · rwa [List.getLastD_concat]
  · exact List.forall_mem_append.mpr ⟨hp.forms, hq.forms⟩
  · exact List.forall_mem_append.mpr ⟨hp.fits, hq.fits⟩

/-- Joined programs are clear if both are. -/
theorem clear_join (hp : p.IsWritable) (hq : q.Writable) (hc : p.Clear) (hc' : q.Clear) : (p.join q).Clear := by
  obtain ⟨leads, last, hgaps, hlength, -, inside, hlast⟩ := hp.exists_gaps
  obtain ⟨leads', last', hgaps', -, hleads', inside', hlast'⟩ := hq.gaps.exists_gaps
  obtain ⟨lead, rest, hcons⟩ := hq.gaps.exists_cons
  have hlead : ∃ inside, Token.Gap inside lead := by
    cases leads' <;> rw [hcons] at hgaps' <;> cases hgaps'
    · exact ⟨inside', hlast'⟩
    · exact ⟨false, hleads' _ List.mem_cons_self⟩
  obtain ⟨within, hlead⟩ := hlead
  have hmiddle : (last ++ "\n" ++ lead).toList ≠ [] := by simp
  refine ⟨?_, List.forall_mem_append.mpr ⟨hc.2, hc'.2⟩⟩
  have hgap : (p.join q).gaps = leads ++ (last ++ "\n" ++ lead) :: rest := by simp [join, hgaps, hcons]
  have htexts : (p.join q).forms.map Form.source = p.forms.map Form.source ++ q.forms.map Form.source :=
    List.map_append
  have hlen : leads.length = (p.forms.map Form.source).length := by rw [hlength, List.length_map]
  have hfirst : Token.apart leads (p.forms.map Form.source) := by
    have h := hc.1
    unfold Form.Apart at h
    rwa [hgaps, Token.apart_append hlen] at h
  have hsecond : Token.apart (lead :: rest) (q.forms.map Form.source) := hcons ▸ hc'.1
  unfold Form.Apart
  rw [hgap, htexts]
  exact Token.apart_join hlen (fun left right => (gap_join hlast hlead).runsOn_append hmiddle left right)
    hfirst hsecond

/-- **Two texts that are programs are one program with a line break between them**: the forms of the first and
then the forms of the second. -/
theorem ofSource_join {a b : String} (hp : ofSource a = .ok p) (hq : ofSource b = .ok q) :
    ofSource (a ++ "\n" ++ b) = .ok (p.join q) := by
  have hw := writable_ofSource hp
  have hw' := writable_ofSource hq
  have hread := ofSource_source (writable_join hw hw')
    (clear_join hw.gaps hw' (clear_ofSource hp) (clear_ofSource hq))
  rwa [source_join hw.gaps hw'.gaps, source_ofSource hp, source_ofSource hq] at hread

end Program

end EditableLisp
