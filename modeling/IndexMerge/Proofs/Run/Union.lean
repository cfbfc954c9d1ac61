import IndexMerge.Proofs.Term.Order
import IndexMerge.Run.Basic
import IndexMerge.Total

/-!
# The union of runs

What several runs hold together: their terms in ascending order (`vocabulary`), the entries of a
term by run (`entriesOf`), and from these the postings and the statistics of the term in all runs.
A union is taken apart at its first term: without it the runs have the union of the others
(`vocabulary_eq_cons`, `entriesOf_without`).
-/

namespace IndexMerge

/-- Adds a term to ascending terms, unless it is there. -/
def insertTerm (term : Term) : List Term → List Term
  | [] => [term]
  | t :: terms =>
    if term.precedes t then term :: t :: terms
    else if term = t then t :: terms
    else t :: insertTerm term terms

/-- Whether terms come in ascending order, each once. -/
abbrev Term.Ascending (terms : List Term) : Prop :=
  terms.Pairwise fun a b => a.precedes b = true

namespace Run

/-- The terms of a run in the order of its entries. -/
def terms (run : Run) : List Term := run.entries.toList.map (·.term)

/-- The entry of a term, if the run has one. -/
def find? (run : Run) (term : Term) : Option RunEntry :=
  run.entries.toList.find? (·.term == term)

/-- Whether the run has an entry of a term. -/
def holds (run : Run) (term : Term) : Bool := (run.find? term).isSome

/-- What is left of a run without a term. -/
def without (run : Run) (term : Term) : Run :=
  { run with entries := run.entries.filter (·.term != term) }

end Run

/-- The terms of runs in ascending order, each once. -/
def vocabulary (runs : List Run) : List Term := (runs.flatMap Run.terms).foldr insertTerm []

/-- The entries of a term, each with the number of its run. -/
def entriesOf (runs : List Run) (term : Term) : List (Nat × RunEntry) :=
  runs.filterMap fun run => (run.find? term).map (run.index, ·)

/-- The postings of a term, run by run. -/
def mergedPostings (runs : List Run) (term : Term) : List Posting :=
  (entriesOf runs term).flatMap (·.2.postings)

/-- Statistics over different documents together, from the first ones on. -/
def combineStatistics : List TermStatistics → Except Error TermStatistics
  | [] => .ok .empty
  | first :: rest => rest.foldlM TermStatistics.combine first

/-- The statistics of a term in all runs. -/
def mergedStatistics (runs : List Run) (term : Term) : Except Error TermStatistics :=
  combineStatistics ((entriesOf runs term).map (·.2.statistics))

theorem mem_insertTerm {term u : Term} {terms : List Term} :
    u ∈ insertTerm term terms ↔ u = term ∨ u ∈ terms := by
  induction terms with
  | nil => simp [insertTerm]
  | cons t terms ih =>
    unfold insertTerm
    by_cases before : term.precedes t = true
    · simp [before]
    · by_cases same : term = t
      · simp [same]
      · simp only [before, Bool.false_eq_true, if_false, same, List.mem_cons, ih]
        exact or_left_comm

theorem ascending_insertTerm {term : Term} {terms : List Term} (h : Term.Ascending terms) :
    Term.Ascending (insertTerm term terms) := by
  induction terms with
  | nil => exact List.pairwise_singleton _ _
  | cons t terms ih =>
    have ⟨first, rest⟩ := List.pairwise_cons.mp h
    unfold insertTerm
    by_cases before : term.precedes t = true
    · simp only [before, if_true]
      refine .cons (fun u member => ?_) h
      rcases List.mem_cons.mp member with rfl | member
      · exact before
      · exact Term.precedes_trans before (first u member)
    · rw [if_neg before]
      by_cases same : term = t
      · rwa [if_pos same]
      · rw [if_neg same]
        refine .cons (fun u member => ?_) (ih rest)
        rcases mem_insertTerm.mp member with rfl | member
        · exact Term.precedes_of_not (Bool.eq_false_iff.mpr before) (Ne.symm same)
        · exact first u member

/-- Ascending terms are determined by which terms they are. -/
theorem Term.Ascending.ext {a b : List Term} (first : Term.Ascending a) (second : Term.Ascending b)
    (same : ∀ term, term ∈ a ↔ term ∈ b) : a = b := by
  have distinct : ∀ {terms : List Term}, Term.Ascending terms → terms.Nodup := fun h =>
    h.imp fun before same => by simp [same] at before
  refine List.Perm.eq_of_pairwise ?_ first second
    ((List.perm_ext_iff_of_nodup (distinct first) (distinct second)).mpr same)
  intro u v _ _ before behind
  rw [Term.precedes_asymm before] at behind
  cases behind

/-- A term that follows the last of ascending terms follows all of them. -/
theorem Term.Ascending.concat {terms : List Term} {term : Term} (h : Term.Ascending terms)
    (follows : ∀ last, terms.getLast? = some last → last.precedes term = true) :
    Term.Ascending (terms ++ [term]) := by
  refine List.pairwise_append.mpr ⟨h, List.pairwise_singleton _ _, fun u found v here => ?_⟩
  obtain rfl := List.mem_singleton.mp here
  rcases List.eq_nil_or_concat terms with none | ⟨front, last, split⟩
  · rw [none] at found
    cases found
  · rw [List.concat_eq_append] at split
    have next := follows last (by rw [split, List.getLast?_concat])
    rw [split] at found h
    rcases List.mem_append.mp found with found | found
    · exact Term.precedes_trans ((List.pairwise_append.mp h).2.2 u found last (by simp)) next
    · rwa [List.mem_singleton.mp found]

theorem mem_vocabulary {runs : List Run} {term : Term} :
    term ∈ vocabulary runs ↔ ∃ run ∈ runs, term ∈ run.terms := by
  rw [← List.mem_flatMap, vocabulary]
  induction runs.flatMap Run.terms with
  | nil => simp
  | cons t terms ih => rw [List.foldr_cons, mem_insertTerm, ih, List.mem_cons]

theorem ascending_vocabulary (runs : List Run) : Term.Ascending (vocabulary runs) := by
  unfold vocabulary
  induction runs.flatMap Run.terms with
  | nil => exact .nil
  | cons t terms ih => exact ascending_insertTerm ih

namespace Run

variable {run : Run} {term u : Term}

@[simp] theorem index_without : (run.without term).index = run.index := rfl

theorem toList_without :
    (run.without term).entries.toList = run.entries.toList.filter (·.term != term) := by
  simp [without]

theorem terms_without : (run.without term).terms = run.terms.filter (· != term) := by
  rw [terms, toList_without, terms, List.filter_map]
  rfl

theorem mem_terms_without : u ∈ (run.without term).terms ↔ u ∈ run.terms ∧ u ≠ term := by
  rw [terms_without, List.mem_filter, bne_iff_ne]

theorem ascending_without (h : Term.Ascending run.terms) :
    Term.Ascending (run.without term).terms := by
  rw [terms_without]
  exact h.filter _

theorem holds_iff : run.holds term = true ↔ term ∈ run.terms := by
  simp [holds, find?, terms]

theorem term_of_find? {e : RunEntry} (found : run.find? term = some e) : e.term = term := by
  simpa using List.find?_some found

theorem mem_of_find? {e : RunEntry} (found : run.find? term = some e) : e ∈ run.entries :=
  Array.mem_toList_iff.mp (List.mem_of_find?_eq_some found)

/-- An entry of a run is found by its term. -/
theorem find?_of_mem {e : RunEntry} (h : Term.Ascending run.terms)
    (listed : e ∈ run.entries.toList) : run.find? e.term = some e := by
  rw [terms] at h
  unfold find?
  generalize run.entries.toList = entries at h listed
  induction entries with
  | nil => cases listed
  | cons first rest ih =>
    have ⟨before, ascending⟩ := List.pairwise_cons.mp h
    rcases List.mem_cons.mp listed with rfl | listed
    · exact List.find?_cons_of_pos (beq_self_eq_true _)
    · have differ : first.term ≠ e.term := by
        intro same
        have follows : first.term.precedes e.term = true :=
          before e.term (List.mem_map_of_mem listed)
        rw [same, Term.precedes_irrefl] at follows
        cases follows
      rw [List.find?_cons_of_neg (by simpa using differ)]
      exact ih ascending listed

theorem find?_without (differ : u ≠ term) : (run.without term).find? u = run.find? u := by
  rw [find?, toList_without, List.find?_filter, find?]
  congr 1
  funext e
  by_cases here : e.term = u
  · simp [here, differ]
  · simp [here]

/-- A run without a term that it does not have is the run. -/
theorem without_of_not_holds (h : run.holds term = false) : run.without term = run := by
  have kept : run.entries.filter (·.term != term) = run.entries := by
    refine Array.filter_eq_self.mpr fun e member => bne_iff_ne.mpr fun same => ?_
    refine Bool.eq_false_iff.mp h (holds_iff.mpr ?_)
    exact List.mem_map.mpr ⟨e, Array.mem_toList_iff.mpr member, same⟩
  rw [without, kept]

/-- Entries behind a term are all kept without it. -/
theorem filter_behind {entries : List RunEntry}
    (behind : ∀ u ∈ entries.map (·.term), term.precedes u = true) :
    entries.filter (·.term != term) = entries := by
  refine List.filter_eq_self.mpr fun e member => bne_iff_ne.mpr fun same => ?_
  have later := behind e.term (List.mem_map_of_mem member)
  rw [same, Term.precedes_irrefl] at later
  cases later

/-- A run without its first term has the entries behind it. -/
theorem without_first {e : RunEntry} {rest : List RunEntry} (h : Term.Ascending run.terms)
    (split : run.entries.toList = e :: rest) :
    run.find? e.term = some e ∧ (run.without e.term).entries.toList = rest := by
  rw [terms, split, List.map_cons, Term.Ascending, List.pairwise_cons] at h
  refine ⟨by simp [find?, split], ?_⟩
  rw [toList_without, split, List.filter_cons_of_neg (by simp), filter_behind h.1]

/-- A run whose first term comes behind a term does not have it. -/
theorem not_holds_of_precedes {e : RunEntry} {rest : List RunEntry} (h : Term.Ascending run.terms)
    (split : run.entries.toList = e :: rest) (before : term.precedes e.term = true) :
    run.holds term = false := by
  refine Bool.eq_false_iff.mpr fun found => ?_
  have member := holds_iff.mp found
  rw [terms, split, List.map_cons] at member h
  rcases List.mem_cons.mp member with rfl | member
  · rw [Term.precedes_irrefl] at before
    cases before
  · have behind := (List.pairwise_cons.mp h).1 term member
    rw [Term.precedes_asymm before] at behind
    cases behind

end Run

/-- A term of runs before which none of their terms comes is the first of the union. -/
theorem vocabulary_eq_cons {runs : List Run} {term : Term} (here : term ∈ vocabulary runs)
    (least : ∀ u ∈ vocabulary runs, u.precedes term = false) :
    vocabulary runs = term :: vocabulary (runs.map (·.without term)) := by
  have members : ∀ u, u ∈ vocabulary (runs.map (·.without term)) ↔
      u ∈ vocabulary runs ∧ u ≠ term := by
    intro u
    rw [mem_vocabulary, mem_vocabulary]
    constructor
    · rintro ⟨left, listed, found⟩
      obtain ⟨run, member, rfl⟩ := List.mem_map.mp listed
      have ⟨found, differ⟩ := Run.mem_terms_without.mp found
      exact ⟨⟨run, member, found⟩, differ⟩
    · rintro ⟨⟨run, member, found⟩, differ⟩
      exact ⟨run.without term, List.mem_map_of_mem member,
        Run.mem_terms_without.mpr ⟨found, differ⟩⟩
  refine (ascending_vocabulary runs).ext (.cons (fun u found => ?_) (ascending_vocabulary _)) ?_
  · have ⟨found, differ⟩ := (members u).mp found
    exact Term.precedes_of_not (least u found) (Ne.symm differ)
  · intro u
    rw [List.mem_cons, members]
    by_cases same : u = term
    · simp [same, here]
    · simp [same]

theorem vocabulary_tail {runs : List Run} {term : Term} {terms : List Term}
    (h : vocabulary runs = term :: terms) :
    vocabulary (runs.map (·.without term)) = terms := by
  have sorted := ascending_vocabulary runs
  rw [h] at sorted
  have least : ∀ u ∈ vocabulary runs, u.precedes term = false := by
    intro u found
    rw [h] at found
    rcases List.mem_cons.mp found with rfl | found
    · exact Term.precedes_irrefl u
    · exact Term.precedes_asymm ((List.pairwise_cons.mp sorted).1 u found)
  have taken := vocabulary_eq_cons (by rw [h]; exact List.mem_cons_self ..) least
  exact List.tail_eq_of_cons_eq (taken.symm.trans h)

theorem entriesOf_without {runs : List Run} {term u : Term} (differ : u ≠ term) :
    entriesOf (runs.map (·.without term)) u = entriesOf runs u := by
  simp [entriesOf, List.filterMap_map, Function.comp_def, Run.find?_without differ]

/-- Only the runs that hold a term matter for it. -/
theorem entriesOf_filter (runs : List Run) (term : Term) :
    entriesOf (runs.filter (·.holds term)) term = entriesOf runs term := by
  rw [entriesOf, List.filterMap_filter, entriesOf]
  congr 1
  funext run
  cases found : run.find? term <;> simp [Run.holds, found]

/-- The runs that hold a term are those that its entries come from. -/
theorem map_index_holders (runs : List Run) (term : Term) :
    (runs.filter (·.holds term)).map Run.index = (entriesOf runs term).map (·.1) := by
  induction runs with
  | nil => rfl
  | cons run runs ih =>
    unfold entriesOf at ih ⊢
    cases found : run.find? term with
    | none =>
      rw [List.filter_cons_of_neg (by simp [Run.holds, found]),
        List.filterMap_cons_none (by rw [found]; rfl), ih]
    | some e =>
      rw [List.filter_cons_of_pos (by simp [Run.holds, found]),
        List.filterMap_cons_some (by rw [found]; rfl), List.map_cons, List.map_cons, ih]

/-- Without a term, the runs that do not hold it are as they are. -/
theorem perm_without (runs : List Run) (term : Term) :
    ((runs.filter (·.holds term)).map (·.without term) ++
      runs.filter fun run => !run.holds term).Perm (runs.map (·.without term)) := by
  have others : (runs.filter fun run => !run.holds term).map (·.without term) =
      runs.filter fun run => !run.holds term := by
    refine (List.map_congr_left fun run member => ?_).trans (List.map_id _)
    exact Run.without_of_not_holds (by simpa using (List.mem_filter.mp member).2)
  rw [← others, ← List.map_append]
  exact (List.filter_append_perm _ runs).map _

end IndexMerge
