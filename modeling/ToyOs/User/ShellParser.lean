import ToyOs.User.Shell

/-!
Whole lines. The loop of `parse_job` works with indices into the line; in terms
of the pieces between the bars it parses one piece after the other, and the
checks after it are the rules of a line.
-/
namespace ToyOs.User

open List

variable {tokens : List Token}

section Splitting

theorem bar_notMem_of_mem_splitOn :
    ∀ piece ∈ tokens.splitOn bar, bar ∉ piece := by
  induction hn : tokens.length using Nat.strongRecOn generalizing tokens with
  | ind n ih =>
    by_cases hbar : bar ∈ tokens
    · obtain ⟨first, rest, rfl, hfirst⟩ := eq_append_cons_of_mem hbar
      rw [splitOn_append_cons_self, splitOn_eq_singleton hfirst]
      intro piece hpiece
      rcases mem_append.mp hpiece with hpiece | hpiece
      · rwa [mem_singleton.mp hpiece]
      · refine ih rest.length ?_ rfl piece hpiece
        rw [← hn, length_append, length_cons]
        omega
    · rw [splitOn_eq_singleton hbar]
      intro piece hpiece
      rwa [mem_singleton.mp hpiece]

/-- A piece of a line that the parser accepts. -/
def parsePiece (piece : List Token) : Option Command :=
  if piece = [] then none else parseCommand piece

/-- `parse_job` up to the last call of `parse_command`. -/
def parsePieces (tokens : List Token) (r : ℕ × List Command) : Option (List Command) :=
  if tokens.length ≤ r.1 then none
  else (parseCommand (tokens.drop r.1)).map fun cmd => r.2 ++ [cmd]

/-- Behind the tokens that are done and the beginning of a piece, the loop parses
one piece after the other. -/
theorem parseJobLoop_eq (done piece rest : List Token) (cmds : List Command) (hbar : bar ∉ piece) :
    (parseJobLoop (done ++ piece ++ rest) rest (done.length + piece.length) done.length cmds).bind
        (parsePieces (done ++ piece ++ rest)) =
      (((piece ++ rest).splitOn bar).mapM parsePiece).map (cmds ++ ·) := by
  induction rest generalizing done piece cmds with
  | nil =>
    rw [append_nil, append_nil, splitOn_eq_singleton hbar]
    cases piece with
    | nil => simp [parseJobLoop, parsePieces, parsePiece]
    | cons token piece =>
      have hlen : ¬ (done ++ token :: piece).length ≤ done.length := by simp
      simp only [parseJobLoop, parsePieces, Option.bind_some, if_neg hlen, drop_left,
        mapM_cons, mapM_nil, parsePiece, if_neg (cons_ne_nil _ _)]
      cases parseCommand (token :: piece) <;> rfl
  | cons token rest ih =>
    by_cases htoken : token = bar
    · subst htoken
      rw [splitOn_append_cons_self, splitOn_eq_singleton hbar, singleton_append,
        mapM_cons]
      have hdrop : ((done ++ piece ++ bar :: rest).drop done.length).take
          (done.length + piece.length - done.length) = piece := by
        rw [append_assoc, drop_left, Nat.add_sub_cancel_left, take_left]
      rw [parseJobLoop, if_pos rfl, hdrop]
      cases piece with
      | nil => simp [parsePiece]
      | cons first piece =>
        rw [if_neg (by simp), parsePiece, if_neg (cons_ne_nil _ _)]
        cases parseCommand (first :: piece) with
        | none => rfl
        | some cmd =>
          have hnext := ih (done ++ first :: piece ++ [bar]) [] (cmds ++ [cmd]) (by simp)
          simp only [append_nil, append_assoc, nil_append, cons_append,
            length_append, length_cons, length_nil, Nat.add_zero,
            Nat.add_assoc, Nat.zero_add] at hnext ⊢
          rw [hnext]
          cases (rest.splitOn bar).mapM parsePiece <;> rfl
    · have hnext := ih done (piece ++ [token]) cmds (by simp [hbar, Ne.symm htoken])
      rw [parseJobLoop, if_neg htoken]
      simpa [append_assoc, Nat.add_assoc] using hnext

/-- The commands of a line, before the checks of `parse_job` on them. -/
def lineCommands (tokens : List Token) : Option (List Command) :=
  (tokens.splitOn bar).mapM parsePiece

/-- The checks of `parse_job` on the commands of a line. -/
def checkJob (cmds : List Command) : Option Job :=
  if cmds.any (fun cmd => cmd.argv.isEmpty) then none
  else match cmds with
    | [cmd] => some (.single cmd)
    | cmds =>
      if cmds.zipIdx.any (misplaced cmds.length) then none
      else some (.pipeline cmds)

theorem parseJob_eq (tokens : List Token) :
    parseJob tokens = (lineCommands tokens).bind checkJob := by
  have hline : (parseJobLoop tokens tokens 0 0 []).bind (parsePieces tokens) = lineCommands tokens := by
    simpa [lineCommands] using parseJobLoop_eq [] [] tokens [] (by simp)
  rw [← hline]
  unfold parseJob
  cases parseJobLoop tokens tokens 0 0 [] with
  | none => rfl
  | some r =>
    obtain ⟨start, cmds⟩ := r
    simp only [Option.bind_some, Option.bind_eq_bind, parsePieces]
    split
    · rfl
    · cases parseCommand (tokens.drop start) <;> rfl

end Splitting

section Lines

variable {items : List Item} {cmd : Command}

/-- Items that `parse_command` reads as a command, perhaps one without words. -/
structure Readable (items : List Item) : Prop where
  wf : ∀ item ∈ items, item.WellFormed
  nonempty : items ≠ []
  inputs : (inputs items).length ≤ 1
  outputs : (outputs items).length ≤ 1

theorem written_eq_nil : written items = [] ↔ items = [] := by
  cases items with
  | nil => simp [written]
  | cons item items => cases item <;> simp [written, Item.tokens]

theorem parsePiece_iff {piece : List Token} :
    parsePiece piece = some cmd ↔
      ∃ items, Readable items ∧ written items = piece ∧ commandOf items = cmd := by
  unfold parsePiece
  constructor
  · intro h
    split at h
    · cases h
    · rename_i hpiece
      obtain ⟨items, hwf, rfl, hitems⟩ := parseCommand_iff.mp h
      obtain ⟨rfl, hin, hout⟩ := continues_start.mp hitems
      exact ⟨items, ⟨hwf, mt written_eq_nil.mpr hpiece, hin, hout⟩, rfl, rfl⟩
  · rintro ⟨items, h, rfl, rfl⟩
    rw [if_neg (mt written_eq_nil.mp h.nonempty)]
    exact parseCommand_iff.mpr ⟨items, h.wf, rfl, continues_start.mpr ⟨rfl, h.inputs, h.outputs⟩⟩

/-- The commands of a list of pieces. -/
theorem mapM_parsePiece_iff {l : List (List Token)} {cmds : List Command} :
    l.mapM parsePiece = some cmds ↔ ∃ pieces : List (List Item),
      (∀ items ∈ pieces, Readable items) ∧ pieces.map written = l ∧
        pieces.map commandOf = cmds := by
  induction l generalizing cmds with
  | nil =>
    constructor
    · intro h
      exact ⟨[], by simp, rfl, by simpa using h⟩
    · rintro ⟨pieces, -, hl, rfl⟩
      rw [map_eq_nil_iff.mp hl]
      rfl
  | cons piece l ih =>
    rw [mapM_cons]
    constructor
    · intro h
      cases hpiece : parsePiece piece with
      | none => simp [hpiece] at h
      | some cmd =>
        cases hrest : l.mapM parsePiece with
        | none => simp [hpiece, hrest] at h
        | some cmds' =>
          obtain rfl : cmd :: cmds' = cmds := by simpa [hpiece, hrest] using h
          obtain ⟨items, hitems, rfl, rfl⟩ := parsePiece_iff.mp hpiece
          obtain ⟨pieces, hpieces, rfl, rfl⟩ := ih.mp hrest
          exact ⟨items :: pieces, forall_mem_cons.mpr ⟨hitems, hpieces⟩, rfl, rfl⟩
    · rintro ⟨pieces, hpieces, hl, rfl⟩
      obtain ⟨items, pieces, rfl, rfl, rfl⟩ := map_eq_cons_iff.mp hl
      obtain ⟨hitems, hpieces⟩ := forall_mem_cons.mp hpieces
      rw [parsePiece_iff.mpr ⟨items, hitems, rfl, rfl⟩, ih.mpr ⟨pieces, hpieces, rfl, rfl⟩]
      rfl

theorem misplaced_commandOf {n i : ℕ} :
    misplaced n (commandOf items, i) = true ↔
      (inputs items ≠ [] ∧ i ≠ 0) ∨ (outputs items ≠ [] ∧ i + 1 ≠ n) := by
  simp [misplaced, commandOf, isSome_head?, and_comm]

/-- The places of the redirections of a pipeline. -/
theorem misplaced_iff {pieces : List (List Item)} :
    (pieces.map commandOf).zipIdx.any (misplaced pieces.length) = false ↔
      (∀ i items, pieces[i]? = some items → inputs items ≠ [] → i = 0) ∧
        ∀ i items, pieces[i]? = some items → outputs items ≠ [] → i + 1 = pieces.length := by
  have hall : (pieces.map commandOf).zipIdx.any (misplaced pieces.length) = false ↔
      ∀ i items, pieces[i]? = some items → misplaced pieces.length (commandOf items, i) ≠ true := by
    simp only [any_eq_false, Prod.forall, mem_zipIdx_iff_getElem?, List.getElem?_map,
      Option.map_eq_some_iff]
    constructor
    · exact fun h i items hi => h _ i ⟨items, hi, rfl⟩
    · rintro h _ i ⟨items, hi, rfl⟩
      exact h i items hi
  rw [hall]
  simp only [ne_eq, misplaced_commandOf]
  constructor
  · intro h
    exact ⟨fun i items hi hin => by_contra fun h0 => h i items hi (Or.inl ⟨hin, h0⟩),
      fun i items hi hout => by_contra fun hn => h i items hi (Or.inr ⟨hout, hn⟩)⟩
  · rintro ⟨hfirst, hlast⟩ i items hi (⟨hin, h0⟩ | ⟨hout, hn⟩)
    · exact h0 (hfirst i items hi hin)
    · exact hn (hlast i items hi hout)

theorem argv_isEmpty_iff {pieces : List (List Item)} :
    (pieces.map commandOf).any (fun cmd => cmd.argv.isEmpty) = false ↔
      ∀ items ∈ pieces, words items ≠ [] := by
  simp [commandOf]

/-- The checks of `parse_job` on the commands of pieces. -/
theorem checkJob_iff {pieces : List (List Item)} {job : Job}
    (hpieces : ∀ items ∈ pieces, Readable items) (hne : pieces ≠ []) :
    checkJob (pieces.map commandOf) = some job ↔ IsLine pieces ∧ jobOf pieces = job := by
  have hpiece : (∀ items ∈ pieces, IsPiece items) ↔ ∀ items ∈ pieces, words items ≠ [] :=
    ⟨fun h items hi => (h items hi).words, fun h items hi =>
      ⟨(hpieces items hi).wf, h items hi, (hpieces items hi).inputs, (hpieces items hi).outputs⟩⟩
  unfold checkJob
  by_cases hwords : ∀ items ∈ pieces, words items ≠ []
  · rw [if_neg (by simp [argv_isEmpty_iff.mpr hwords])]
    match pieces, hne with
    | [items], _ =>
      have hline : IsLine [items] :=
        ⟨by simp, hpiece.mpr hwords, fun i x hi _ => by
          have := (List.getElem?_eq_some_iff.mp hi).1
          simpa using this, fun i x hi _ => by
          have := (List.getElem?_eq_some_iff.mp hi).1
          simpa using this⟩
      simp [hline, jobOf]
    | a :: b :: rest, _ =>
      have hplaces := @misplaced_iff (a :: b :: rest)
      have hlen : ((a :: b :: rest).map commandOf).length = (a :: b :: rest).length :=
        length_map _
      show (if ((a :: b :: rest).map commandOf).zipIdx.any
          (misplaced ((a :: b :: rest).map commandOf).length) then none
        else some (Job.pipeline ((a :: b :: rest).map commandOf))) = some job ↔ _
      rw [hlen]
      cases hany : ((a :: b :: rest).map commandOf).zipIdx.any (misplaced (a :: b :: rest).length) with
      | true =>
        have hline : ¬ IsLine (a :: b :: rest) := fun h => by
          rw [hplaces.mpr ⟨h.input_first, h.output_last⟩] at hany
          cases hany
        simp [hline]
      | false =>
        obtain ⟨hfirst, hlast⟩ := hplaces.mp hany
        have hline : IsLine (a :: b :: rest) := ⟨by simp, hpiece.mpr hwords, hfirst, hlast⟩
        simp [hline, jobOf]
  · have hline : ¬ IsLine pieces := fun h => hwords (hpiece.mp h.piece)
    have hany := mt argv_isEmpty_iff.mp hwords
    rw [if_pos (by simpa using hany)]
    simp [hline]

/-- The parser returns the job of the line that the tokens are. -/
theorem parseJob_iff {job : Job} :
    parseJob tokens = some job ↔ ∃ pieces : List (List Item),
      IsLine pieces ∧ pieces.map written = tokens.splitOn bar ∧ jobOf pieces = job := by
  rw [parseJob_eq, Option.bind_eq_some_iff]
  constructor
  · rintro ⟨cmds, hcmds, hjob⟩
    obtain ⟨pieces, hpieces, hsplit, rfl⟩ := mapM_parsePiece_iff.mp hcmds
    have hne : pieces ≠ [] := by
      rintro rfl
      exact splitOn_ne_nil bar tokens hsplit.symm
    obtain ⟨hline, hjob⟩ := (checkJob_iff hpieces hne).mp hjob
    exact ⟨pieces, hline, hsplit, hjob⟩
  · rintro ⟨pieces, hline, hsplit, hjob⟩
    have hpieces : ∀ items ∈ pieces, Readable items := by
      intro items hi
      obtain ⟨hwf, hwords, hin, hout⟩ := hline.piece items hi
      exact ⟨hwf, fun h => hwords (by rw [h]; rfl), hin, hout⟩
    exact ⟨_, mapM_parsePiece_iff.mpr ⟨pieces, hpieces, hsplit, rfl⟩,
      (checkJob_iff hpieces hline.nonempty).mpr ⟨hline, hjob⟩⟩

end Lines

section RoundTrip

variable {items : List Item} {pieces : List (List Item)}

theorem words_items (cmd : Command) : words cmd.items = cmd.argv := by
  simp [words, Command.items, filterMap_append, filterMap_map, Function.comp_def,
    Item.word?]

theorem inputs_items (cmd : Command) : inputs cmd.items = cmd.input.toList := by
  simp [inputs, Command.items, filterMap_append, filterMap_map, Function.comp_def,
    Item.input?]

theorem outputs_items (cmd : Command) : outputs cmd.items = cmd.output.toList := by
  simp [outputs, Command.items, filterMap_append, filterMap_map, Function.comp_def,
    Item.output?]

/-- Written back and read again, a command is the same. -/
theorem commandOf_items (cmd : Command) : commandOf cmd.items = cmd := by
  simp [commandOf, words_items, inputs_items, outputs_items]

/-- The items of the command of a piece are items of the piece. -/
theorem mem_items_commandOf {item : Item} (h : item ∈ (commandOf items).items) : item ∈ items := by
  simp only [Command.items, commandOf, mem_append, mem_map, Option.mem_toList] at h
  rcases h with (⟨token, hmem, rfl⟩ | ⟨path, hmem, rfl⟩) | ⟨out, hmem, rfl⟩
  · obtain ⟨item, hitem, hword⟩ := mem_filterMap.mp hmem
    cases item with
    | word token' =>
      obtain rfl := Option.some.inj hword
      exact hitem
    | input path => cases hword
    | output path append => cases hword
  · obtain ⟨item, hitem, hinput⟩ := mem_filterMap.mp (mem_of_head? hmem)
    cases item with
    | input path' =>
      obtain rfl := Option.some.inj hinput
      exact hitem
    | word token => cases hinput
    | output path' append => cases hinput
  · obtain ⟨item, hitem, houtput⟩ := mem_filterMap.mp (mem_of_head? hmem)
    cases item with
    | output path append =>
      obtain rfl := Option.some.inj houtput
      exact hitem
    | word token => cases houtput
    | input path => cases houtput

/-- The pieces of a line, the words of each before its redirections. -/
theorem IsLine.sort (h : IsLine pieces) : IsLine (pieces.map fun items => (commandOf items).items) := by
  have hin (items : List Item) (hne : inputs (commandOf items).items ≠ []) : inputs items ≠ [] := by
    intro h0
    rw [inputs_items] at hne
    exact hne (by simp [commandOf, h0])
  have hout (items : List Item) (hne : outputs (commandOf items).items ≠ []) :
      outputs items ≠ [] := by
    intro h0
    rw [outputs_items] at hne
    exact hne (by simp [commandOf, h0])
  refine ⟨by simpa using h.nonempty, ?_, ?_, ?_⟩
  · intro items' hmem
    obtain ⟨items, hitems, rfl⟩ := mem_map.mp hmem
    have hpiece := h.piece items hitems
    refine ⟨fun item hi => hpiece.wf item (mem_items_commandOf hi), ?_, ?_, ?_⟩
    · rw [words_items]
      exact hpiece.words
    · rw [inputs_items]
      cases (commandOf items).input <;> simp
    · rw [outputs_items]
      cases (commandOf items).output <;> simp
  · intro i items' hi hne
    rw [List.getElem?_map, Option.map_eq_some_iff] at hi
    obtain ⟨items, hi, rfl⟩ := hi
    exact h.input_first i items hi (hin items hne)
  · intro i items' hi hne
    rw [List.getElem?_map, Option.map_eq_some_iff] at hi
    obtain ⟨items, hi, rfl⟩ := hi
    rw [length_map]
    exact h.output_last i items hi (hout items hne)

theorem cmds_jobOf : (jobOf pieces).cmds = pieces.map commandOf := by
  match pieces with
  | [] => rfl
  | [_] => rfl
  | _ :: _ :: _ => rfl

theorem jobOf_items : jobOf (pieces.map fun items => (commandOf items).items) = jobOf pieces := by
  match pieces with
  | [] => rfl
  | [_] => simp [jobOf, commandOf_items]
  | _ :: _ :: _ => simp [jobOf, commandOf_items]

/-- Written back as tokens and parsed again, a job is the same. -/
theorem parseJob_tokens {job : Job} (h : parseJob tokens = some job) :
    parseJob job.tokens = some job := by
  obtain ⟨pieces, hline, hsplit, rfl⟩ := parseJob_iff.mp h
  refine parseJob_iff.mpr ⟨_, hline.sort, ?_, jobOf_items⟩
  rw [Job.tokens, cmds_jobOf, splitOn_intercalate]
  · simp
  · intro piece hpiece hbar
    simp only [map_map, mem_map, Function.comp] at hpiece
    obtain ⟨items, hitems, rfl⟩ := hpiece
    obtain ⟨item, hitem, hbar⟩ := mem_flatMap.mp hbar
    have hmem : written items ∈ tokens.splitOn bar := hsplit ▸ mem_map_of_mem hitems
    exact bar_notMem_of_mem_splitOn _ hmem
      (mem_flatMap.mpr ⟨item, mem_items_commandOf hitem, hbar⟩)
  · simpa using hline.nonempty

end RoundTrip

/-- The parser accepts exactly its grammar. The job has one command for each
piece between the bars, and written back as tokens it parses to itself. -/
theorem parser_grammar (tokens : List Token) :
    ((parseJob tokens).isSome ↔ ∃ pieces : List (List Item),
      IsLine pieces ∧ pieces.map written = tokens.splitOn bar) ∧
    (∀ job, parseJob tokens = some job ↔ ∃ pieces : List (List Item),
      IsLine pieces ∧ pieces.map written = tokens.splitOn bar ∧ jobOf pieces = job) ∧
    ∀ job, parseJob tokens = some job → parseJob job.tokens = some job := by
  refine ⟨?_, fun job => parseJob_iff, fun job => parseJob_tokens⟩
  rw [Option.isSome_iff_exists]
  constructor
  · rintro ⟨job, hjob⟩
    obtain ⟨pieces, hline, hsplit, -⟩ := parseJob_iff.mp hjob
    exact ⟨pieces, hline, hsplit⟩
  · rintro ⟨pieces, hline, hsplit⟩
    exact ⟨jobOf pieces, parseJob_iff.mpr ⟨pieces, hline, hsplit, rfl⟩⟩

end ToyOs.User
