import Sift.Proofs.TomlValues

/-!
# Documents are read back

The text of a document is the text of its statements, one after another, with empty lines
between the sections. The reader takes one statement after another and refuses those that
go beyond its limits, so it defines the table that was written or nothing at all.

A text that is made of statements and empty lines `Lays` them; `LaysAll` is that for several
texts and `LaysSections` for the sections below a table.
-/

namespace Sift.Toml

open Sift.Text Sift.Grammar
open Value (Everywhere IsWritable)

namespace Statement

def text : Statement → List Char
  | .entry path v => pathText path ++ ' ' :: '=' :: ' ' :: (v.chars true ++ ['\n'])
  | .header path => '[' :: (pathText path ++ [']', '\n'])
  | .elementHeader path => '[' :: '[' :: (pathText path ++ [']', ']', '\n'])

/-- Whether the statement is within the limits of the reader. -/
def fits : Statement → Bool
  | .entry _ v => v.levels ≤ nestingLimit - 1
  | .header path => path.length < nestingLimit
  | .elementHeader path => path.length < nestingLimit

def IsReadable : Statement → Prop
  | .entry path v => (∃ key, path = [key]) ∧ Everywhere IsWritable v
  | .header path => path ≠ []
  | .elementHeader path => path ≠ []

theorem exists_text_append {st : Statement} (h : st.IsReadable) (rest : List Char) :
    ∃ c t, st.text ++ rest = c :: t ∧ isSpace c = false ∧ c ≠ '\n' ∧ c ≠ '#' ∧ c ≠ '\uFEFF' := by
  cases st with
  | entry path v =>
    obtain ⟨⟨key, rfl⟩, -⟩ := h
    rw [text, List.append_assoc]
    obtain ⟨c, t, htext, hspace, -, hnewline, hcomment, hmark, -⟩ :=
      pathText_classes (List.cons_ne_nil key []) _
    exact ⟨c, t, htext, hspace, hnewline, hcomment, hmark⟩
  | header path => exact ⟨'[', _, rfl, by decide⟩
  | elementHeader path => exact ⟨'[', _, rfl, by decide⟩

theorem skipGap_text {st : Statement} (h : st.IsReadable) (rest : List Char) :
    skipGap false (st.text ++ rest) = st.text ++ rest := by
  obtain ⟨c, t, htext, hspace, hnewline, hcomment, -⟩ := exists_text_append h rest
  rw [htext, skipGap, if_neg hnewline, if_neg Bool.false_ne_true, if_neg (by simp [hspace]),
    if_neg hcomment]

end Statement

theorem headerPath_pathText {path : List String} (hpath : path ≠ []) (rest : List Char) :
    headerPath (pathText path ++ ']' :: rest) =
      if path.length < nestingLimit then some (path, rest) else none := by
  have hspaces : skipSpaces (']' :: rest) = ']' :: rest :=
    skipSpaces_of_stops (by rw [stops_cons]; rfl)
  have hread := taken_keyPath hpath (skipSpaces_pathText hpath (']' :: rest))
    (by rw [stops_cons]; decide) (by rw [hspaces, stops_cons]; decide)
  rw [hspaces] at hread
  by_cases hlength : path.length < nestingLimit
  · rw [if_pos hlength] at hread ⊢
    obtain ⟨hrest, hread⟩ := taken_eq_some hread
    rw [headerPath, hread]
    rfl
  · rw [if_neg hlength] at hread ⊢
    rw [headerPath, taken_eq_none hread]

theorem statement_header {path : List String} (hpath : path ≠ []) (rest : List Char) :
    statement ('[' :: (pathText path ++ ']' :: '\n' :: rest)) =
      if path.length < nestingLimit then some (.header path, rest) else none := by
  obtain ⟨c, t, htext, -, hbracket, -⟩ := pathText_classes hpath (']' :: '\n' :: rest)
  have hread := headerPath_pathText hpath ('\n' :: rest)
  rw [htext] at hread ⊢
  have hone : ∀ s, c :: t = '[' :: s → False := fun s heq => hbracket (List.cons.inj heq).1
  rw [statement.eq_2 (c :: t) hone, hread]
  by_cases hlength : path.length < nestingLimit
  · rw [if_pos hlength, if_pos hlength]
    rfl
  · rw [if_neg hlength, if_neg hlength]

theorem statement_elementHeader {path : List String} (hpath : path ≠ []) (rest : List Char) :
    statement ('[' :: '[' :: (pathText path ++ ']' :: ']' :: '\n' :: rest)) =
      if path.length < nestingLimit then some (.elementHeader path, rest) else none := by
  rw [statement, headerPath_pathText hpath]
  by_cases hlength : path.length < nestingLimit
  · rw [if_pos hlength, if_pos hlength]
    rfl
  · rw [if_neg hlength, if_neg hlength]

theorem statement_entry (key : String) {v : Value} (hv : Everywhere IsWritable v)
    (rest : List Char) :
    statement (pathText [key] ++ ' ' :: '=' :: ' ' :: (v.chars true ++ '\n' :: rest)) =
      if v.levels ≤ nestingLimit - 1 then some (.entry [key] v.ordered, rest) else none := by
  generalize hs : pathText [key] ++ ' ' :: '=' :: ' ' :: (v.chars true ++ '\n' :: rest) = s
  have hentry : s = entryText key (v.chars true) ++ '\n' :: rest := by
    rw [← hs, pathText_single, entryText]
    simp only [List.append_assoc, List.cons_append, List.nil_append]
  have hread : taken (keyValue (value (nestingLimit - 1)) s) = _ := taken_keyValue
    (by rw [← hs, skipSpaces_pathText (List.cons_ne_nil key []), hs, hentry])
    (Value.skipSpaces_chars hv true _)
  rw [reads_value hv _ true (.mark (by decide) rest)] at hread
  have hone : ∀ t, s = '[' :: t → False := by
    obtain ⟨c, t, htext, -, hbracket, -⟩ := pathText_classes (List.cons_ne_nil key [])
      (' ' :: '=' :: ' ' :: (v.chars true ++ '\n' :: rest))
    rw [← hs, htext]
    exact fun s heq => hbracket (List.cons.inj heq).1
  rw [statement.eq_3 s (fun t heq => hone _ heq) hone]
  by_cases hlevels : v.levels ≤ nestingLimit - 1
  · rw [if_pos hlevels] at hread ⊢
    obtain ⟨hrest, hread⟩ := taken_eq_some hread
    rw [hread]
    rfl
  · rw [if_neg hlevels] at hread ⊢
    rw [taken_eq_none hread]

theorem statement_text {st : Statement} (h : st.IsReadable) (rest : List Char) :
    statement (st.text ++ rest) = if st.fits then some (st.ordered, rest) else none := by
  cases st with
  | entry path v =>
    obtain ⟨⟨key, rfl⟩, hv⟩ := h
    have hread := statement_entry key hv rest
    simpa only [Statement.text, Statement.fits, Statement.ordered, List.append_assoc,
      List.cons_append, List.nil_append, decide_eq_true_eq] using hread
  | header path =>
    have hread := statement_header h rest
    simpa only [Statement.text, Statement.fits, Statement.ordered, List.append_assoc,
      List.cons_append, List.nil_append, decide_eq_true_eq] using hread
  | elementHeader path =>
    have hread := statement_elementHeader h rest
    simpa only [Statement.text, Statement.fits, Statement.ordered, List.append_assoc,
      List.cons_append, List.nil_append, decide_eq_true_eq] using hread

/-- A text is made of statements, one after another, and empty lines. -/
inductive Lays : List Statement → List Char → Prop
  | nil : Lays [] []
  | blank {sts : List Statement} {s : List Char} (h : Lays sts s) : Lays sts ('\n' :: s)
  | cons {st : Statement} {sts : List Statement} {s : List Char} (hst : st.IsReadable)
      (h : Lays sts s) : Lays (st :: sts) (st.text ++ s)

theorem statements_of_lays {sts : List Statement} {text : List Char} (h : Lays sts text)
    {s : List Char} (hs : skipGap false s = skipGap false text) :
    statements s = if sts.all Statement.fits then some (sts.map Statement.ordered) else none := by
  induction h generalizing s with
  | nil =>
    rw [statements, hs]
    rfl
  | blank h ih => exact ih hs
  | @cons st sts rest hst h ih =>
    obtain ⟨c, t, htext, -⟩ := Statement.exists_text_append hst rest
    have hstatement := statement_text hst rest
    rw [Statement.skipGap_text hst] at hs
    have hlength : rest.length < s.length := by
      obtain ⟨c, t, htext, -⟩ := Statement.exists_text_append hst []
      have hgap := length_skipGap_le false s
      rw [List.append_nil] at htext
      rw [hs, htext, List.length_append, List.length_cons] at hgap
      omega
    rw [htext] at hs hstatement
    rw [statements, hs]
    dsimp only
    rw [hstatement, List.all_cons]
    cases st.fits with
    | false => rfl
    | true =>
      rw [if_pos rfl]
      dsimp only
      rw [if_pos hlength, ih rfl, Bool.true_and]
      split
      · rfl
      · rfl

theorem eq_nil_of_lays {sts : List Statement} {text : List Char} (h : Lays sts text)
    (htext : text = []) : sts = [] := by
  cases h with
  | nil => rfl
  | blank h => exact absurd htext (List.cons_ne_nil _ _)
  | cons hst h =>
    obtain ⟨c, t, hst, -⟩ := Statement.exists_text_append hst _
    exact absurd (hst.symm.trans htext) (List.cons_ne_nil c t)

theorem Lays.append {sts sts' : List Statement} {s s' : List Char} (h : Lays sts s)
    (h' : Lays sts' s') : Lays (sts ++ sts') (s ++ s') := by
  induction h with
  | nil => exact h'
  | blank _ ih => exact ih.blank
  | cons hst _ ih =>
    rw [List.append_assoc]
    exact ih.cons hst

inductive LaysAll : List Statement → List (List Char) → Prop
  | nil : LaysAll [] []
  | cons {sts sts' : List Statement} {s : List Char} {texts : List (List Char)} (h : Lays sts s)
      (h' : LaysAll sts' texts) : LaysAll (sts ++ sts') (s :: texts)

theorem LaysAll.append {sts sts' : List Statement} {texts texts' : List (List Char)}
    (h : LaysAll sts texts) (h' : LaysAll sts' texts') :
    LaysAll (sts ++ sts') (texts ++ texts') := by
  induction h with
  | nil => exact h'
  | cons hs _ ih =>
    rw [List.append_assoc]
    exact .cons hs ih

theorem LaysAll.lays {sts : List Statement} {texts : List (List Char)} (h : LaysAll sts texts) :
    Lays sts (['\n'].intercalate texts) := by
  induction h with
  | nil => exact .nil
  | @cons sts sts' s texts hs h ih =>
    cases texts with
    | nil =>
      cases h
      simpa [List.intercalate] using hs
    | cons next texts =>
      rw [intercalate_cons_cons]
      exact hs.append (ih.blank)

theorem lays_body {entries : List (String × Value)}
    (hwritable : ∀ e ∈ entries, Everywhere IsWritable e.2) :
    Lays (entryStatements (unsectioned entries)) (body entries) := by
  have hlines : ∀ e ∈ unsectioned entries, Everywhere IsWritable e.2 :=
    fun e he => hwritable e (List.mem_filter.1 he).1
  rw [body, ← unsectioned]
  generalize unsectioned entries = lines at hlines
  induction lines with
  | nil => exact .nil
  | cons e others ih =>
    obtain ⟨key, v⟩ := e
    obtain ⟨hfirst, hothers⟩ := List.forall_mem_cons.1 hlines
    have hst : (Statement.entry [key] v).IsReadable := ⟨⟨key, rfl⟩, hfirst⟩
    have htext : entryText key (v.chars true) ++ ['\n'] = (Statement.entry [key] v).text := by
      rw [Statement.text, pathText_single, entryText]
      simp only [List.append_assoc, List.cons_append, List.nil_append]
    rw [List.flatMap_cons]
    dsimp only
    rw [htext]
    exact .cons hst (ih hothers)

def LaysSections (entries : List (String × Value)) : Prop :=
  ∀ path, LaysAll (sectionStatements path entries) (sections path entries)

theorem laysAll_elements {elements : List Value}
    (hwritable : ∀ v ∈ elements, Everywhere IsWritable v)
    (hlays : ∀ es, .table es ∈ elements → LaysSections es) {path : List String}
    (hpath : path ≠ []) :
    LaysAll (elementStatements path elements) (elementSections path elements) := by
  induction elements with
  | nil =>
    rw [elementStatements, elementSections]
    exact .nil
  | cons v others ih =>
    obtain ⟨hv, hothers⟩ := List.forall_mem_cons.1 hwritable
    have hrest := ih hothers fun es hes => hlays es (List.mem_cons_of_mem _ hes)
    cases v with
    | table es =>
      have hbody := lays_body ((Value.everywhere_table.1 hv).2)
      have hheader : Lays (.elementHeader path :: entryStatements (unsectioned es)) _ :=
        .cons hpath hbody
      rw [elementStatements, elementSections]
      exact .cons hheader ((hlays es (List.mem_cons_self ..) path).append hrest)
    | _ =>
      rw [elementStatements, elementSections]
      · exact hrest
      all_goals
        intros
        contradiction

theorem laysSections_of_sections {entries : List (String × Value)}
    (hwritable : ∀ e ∈ entries, Everywhere IsWritable e.2)
    (h : ∀ e ∈ entries, ∀ es, Value.SectionOf es e.2 → LaysSections es) :
    LaysSections entries := by
  intro path
  induction entries with
  | nil =>
    rw [sectionStatements, sections]
    exact .nil
  | cons e others ih =>
    obtain ⟨key, v⟩ := e
    obtain ⟨hv, hothers⟩ := List.forall_mem_cons.1 hwritable
    obtain ⟨hbelow, hsections⟩ := List.forall_mem_cons.1 h
    have hrest := ih hothers hsections
    have hpath : path ++ [key] ≠ [] := List.append_ne_nil_of_right_ne_nil _ (List.cons_ne_nil _ _)
    cases v with
    | table es =>
      have hbody := lays_body ((Value.everywhere_table.1 hv).2)
      have hheader : Lays (.header (path ++ [key]) :: entryStatements (unsectioned es)) _ :=
        .cons hpath hbody
      have hlays := hbelow es rfl (path ++ [key])
      rw [sectionStatements, sections]
      cases needsHeader es with
      | false => exact hlays.append hrest
      | true => exact (LaysAll.cons hheader hlays).append hrest
    | array vs =>
      have helements := laysAll_elements (Value.everywhere_array.1 hv).2 hbelow hpath
      rw [sectionStatements, sections]
      cases (Value.array vs).isSectioned with
      | false => exact hrest
      | true => exact helements.append hrest
    | _ =>
      rw [sectionStatements, sections]
      · exact hrest
      all_goals
        intro _ _ heq
        cases heq

theorem laysSections {entries : List (String × Value)}
    (h : Everywhere IsWritable (.table entries)) : LaysSections entries := by
  induction entries using Value.sections_induction with
  | step es ih =>
    exact laysSections_of_sections (Value.everywhere_table.1 h).2 fun e he below hbelow =>
      ih e he below hbelow (Value.everywhere_sectionOf h he hbelow)

theorem lays_document {entries : List (String × Value)}
    (h : Everywhere IsWritable (.table entries)) :
    Lays (documentStatements entries) (document entries) := by
  have hsections := laysSections h []
  have hbody := lays_body (Value.everywhere_table.1 h).2
  rw [document, documentStatements]
  refine LaysAll.lays ?_
  split
  · next hempty =>
    rw [hempty] at hbody
    rw [eq_nil_of_lays hbody rfl]
    exact hsections
  · exact .cons hbody hsections

theorem run_intercalate {separator : List Char} {texts : List (List Char)}
    (hseparator : Run isPrinted separator) (htexts : ∀ text ∈ texts, Run isPrinted text) :
    Run isPrinted (separator.intercalate texts) := by
  match texts with
  | [] => exact run_nil _
  | [text] =>
    have htext := htexts text (List.mem_cons_self ..)
    simpa [List.intercalate] using htext
  | first :: second :: others =>
    obtain ⟨hfirst, hothers⟩ := List.forall_mem_cons.1 htexts
    rw [intercalate_cons_cons]
    exact run_append hfirst (run_append hseparator (run_intercalate hseparator hothers))

theorem run_entryText (key : String) {text : List Char} (htext : Run isPrinted text) :
    Run isPrinted (entryText key text) :=
  run_append (run_append (run_isPrinted_keyText _) (run_of_all (by decide))) htext

theorem run_arrayText (spread : Bool) {texts : List (List Char)}
    (h : ∀ text ∈ texts, Run isPrinted text) : Run isPrinted (arrayText spread texts) := by
  rw [arrayText]
  split
  · refine run_append ((run_cons _ _ _).2 ⟨by decide, fun c hc => ?_⟩) (run_of_all (by decide))
    obtain ⟨text, htext, hc⟩ := List.mem_flatMap.1 hc
    exact run_append (run_append (run_of_all (s := ['\n', ' ', ' ', ' ', ' ']) (by decide))
      (h text htext)) (run_of_all (by decide)) c hc
  · exact run_append ((run_cons _ _ _).2 ⟨by decide, run_intercalate (run_of_all (by decide)) h⟩)
      (run_of_all (by decide))

theorem run_inlineTableText {texts : List (List Char)} (h : ∀ text ∈ texts, Run isPrinted text) :
    Run isPrinted (inlineTableText texts) := by
  rw [inlineTableText]
  split
  · exact run_of_all (by decide)
  · exact run_append (run_append (run_of_all (s := ['\x7b', ' ']) (by decide))
      (run_intercalate (run_of_all (by decide)) h)) (run_of_all (by decide))

theorem run_chars {v : Value} (h : Everywhere IsWritable v) (spread : Bool) :
    Run isPrinted (v.chars spread) := by
  induction v using Value.induction with
  | scalar v harray htable =>
    have hv := (Value.everywhere_scalar harray htable).1 h
    exact run_isPrinted_scalar (Value.isScalar_of_writable harray htable hv) spread
  | array vs ih =>
    rw [Value.everywhere_array] at h
    have hall : ∀ text ∈ vs.map (Value.chars spread), Run isPrinted text := by
      intro text htext
      obtain ⟨v, hv, rfl⟩ := List.mem_map.1 htext
      exact ih v hv (h.2 v hv)
    rw [Value.chars, Value.charsOfElements_eq]
    exact run_arrayText spread hall
  | table es ih =>
    rw [Value.everywhere_table] at h
    have hall : ∀ text ∈ es.map fun e => entryText e.1 (e.2.chars spread), Run isPrinted text := by
      intro text htext
      obtain ⟨e, he, rfl⟩ := List.mem_map.1 htext
      exact run_entryText e.1 (ih e he (h.2 e he))
    rw [Value.chars, Value.charsOfEntries_eq]
    exact run_inlineTableText hall

theorem run_pathText (path : List String) : Run isPrinted (pathText path) := by
  refine run_intercalate (run_of_all (by decide)) fun text htext => ?_
  obtain ⟨key, -, rfl⟩ := List.mem_map.1 htext
  exact run_isPrinted_keyText key.toList

theorem Statement.run_text {st : Statement} (h : st.IsReadable) : Run isPrinted st.text := by
  cases st with
  | entry path v =>
    exact run_append (run_pathText path) (run_append (run_of_all (s := [' ', '=', ' ']) (by decide))
      (run_append (run_chars h.2 true) (run_of_all (by decide))))
  | header path =>
    exact (run_cons _ _ _).2 ⟨by decide, run_append (run_pathText path) (run_of_all (by decide))⟩
  | elementHeader path =>
    exact run_append (run_of_all (s := ['[', '[']) (by decide))
      (run_append (run_pathText path) (run_of_all (by decide)))

theorem Lays.run {sts : List Statement} {text : List Char} (h : Lays sts text) :
    Run isPrinted text := by
  induction h with
  | nil => exact run_nil _
  | blank _ ih => exact (run_cons _ _ _).2 ⟨by decide, ih⟩
  | cons hst _ ih => exact run_append (Statement.run_text hst) ih

theorem unifyNewlines_printed {s : List Char} (h : Run isPrinted s) : unifyNewlines s = s := by
  induction s with
  | nil => rfl
  | cons c s ih =>
    obtain ⟨hc, hs⟩ := (run_cons _ _ _).1 h
    rw [unifyNewlines, ih hs]
    rintro t rfl
    exact absurd hc (by decide)

theorem dropMark_lays {sts : List Statement} {text : List Char} (h : Lays sts text) :
    dropMark text = text := by
  cases h with
  | nil => rfl
  | blank h => rfl
  | cons hst h =>
    obtain ⟨c, t, htext, -, -, -, hmark⟩ := Statement.exists_text_append hst _
    rw [htext, dropMark, if_neg hmark]

/-- A document that was written is read back, with the keys of every table in order, unless it
goes beyond the limits of the reader. -/
theorem read_document {entries : List (String × Value)}
    (h : Everywhere IsWritable (.table entries)) :
    Toml.read (String.ofList (document entries)) =
      if (documentStatements entries).all Statement.fits then
        some (.table (Value.orderedEntries entries)) else none := by
  have hlays := lays_document h
  have hdistinct : Everywhere Value.IsDistinct (.table entries) :=
    h.mono fun _ => Value.IsWritable.distinct
  rw [Toml.read, String.toList_ofList, dropMark_lays hlays, unifyNewlines_printed hlays.run,
    statements_of_lays hlays rfl]
  split
  · rw [Option.bind_some, tableOfStatements_document hdistinct]
  · rfl

end Sift.Toml
