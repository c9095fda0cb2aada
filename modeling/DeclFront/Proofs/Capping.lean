import DeclFront.Proofs.Reports
import DeclFront.Proofs.Respacing

/-! The report of a job stands in the order of the text, and the cap on it cuts off its end and
nothing else. The order comes from a stable sort if the job is completed, and else from the lexer. -/

namespace DeclFront

variable {ds sorted : List Diagnostic} {limit : Nat}

/-! ### Stable sorting -/

def InTextOrder (ds : List Diagnostic) : Prop :=
  ds.Pairwise (fun a b => a.span.start ≤ b.span.start)

def startingAt (k : Nat) (ds : List Diagnostic) : List Diagnostic :=
  ds.filter (fun d => d.span.start == k)

/-- The same diagnostics in the order of the text, where those that start at one place stand in the
order in which they stood before. -/
structure StableSort (ds sorted : List Diagnostic) : Prop where
  perm : sorted.Perm ds
  inTextOrder : InTextOrder sorted
  stable : ∀ k, startingAt k sorted = startingAt k ds

theorem sortDiagnostics_stableSort (ds : List Diagnostic) : StableSort ds (sortDiagnostics ds) := by
  have htrans (a b c : Diagnostic) : decide (a.span.start ≤ b.span.start) = true →
      decide (b.span.start ≤ c.span.start) = true →
      decide (a.span.start ≤ c.span.start) = true := by
    simp only [decide_eq_true_eq]
    omega
  have htotal (a b : Diagnostic) :
      (decide (a.span.start ≤ b.span.start) || decide (b.span.start ≤ a.span.start)) = true := by
    simp only [Bool.or_eq_true, decide_eq_true_eq]
    omega
  have hperm : (sortDiagnostics ds).Perm ds := List.mergeSort_perm ds _
  refine ⟨hperm, ?_, fun k => ?_⟩
  · have hsorted := List.pairwise_mergeSort htrans htotal ds
    exact hsorted.imp (fun h => by simpa using h)
  · -- Those at one place are a sorted part of the list, so the sort keeps them in their order.
    have hplace : (startingAt k ds).Pairwise
        (fun a b => decide (a.span.start ≤ b.span.start) = true) := by
      apply List.pairwise_of_forall_mem_list
      intro a ha b hb
      simp only [startingAt, List.mem_filter, beq_iff_eq] at ha hb
      simp only [decide_eq_true_eq]
      omega
    have hsub : (startingAt k ds).Sublist (sortDiagnostics ds) :=
      List.sublist_mergeSort htrans htotal hplace List.filter_sublist
    have hsub' : (startingAt k ds).Sublist (startingAt k (sortDiagnostics ds)) := by
      simpa [startingAt, List.filter_filter] using hsub.filter (fun d => d.span.start == k)
    exact (hsub'.eq_of_length (hperm.filter _).length_eq.symm).symm

theorem mem_of_startingAt {xs ys : List Diagnostic} {d : Diagnostic}
    (h : ∀ k, startingAt k xs = startingAt k ys) (hd : d ∈ xs) : d ∈ ys := by
  have hplace : d ∈ startingAt d.span.start xs := by simp [startingAt, hd]
  rw [h] at hplace
  exact (List.mem_filter.mp hplace).1

/-- What is in the order of the text is determined by what there is at each place. -/
theorem InTextOrder.eq_of_startingAt {xs ys : List Diagnostic} (hx : InTextOrder xs)
    (hy : InTextOrder ys) (h : ∀ k, startingAt k xs = startingAt k ys) : xs = ys := by
  have h' : ∀ k, startingAt k ys = startingAt k xs := fun k => (h k).symm
  induction xs generalizing ys with
  | nil =>
    apply Eq.symm
    apply List.eq_nil_iff_forall_not_mem.mpr
    intro b hb
    simpa using mem_of_startingAt h' hb
  | cons a xs ih =>
    cases ys with
    | nil => simpa using mem_of_startingAt h (d := a) (by simp)
    | cons b ys =>
      have hle {c d : Diagnostic} {zs : List Diagnostic} (hz : InTextOrder (d :: zs))
          (hc : c ∈ d :: zs) : d.span.start ≤ c.span.start := by
        rcases List.mem_cons.mp hc with rfl | hc
        · omega
        · exact List.rel_of_pairwise_cons hz hc
      have hab : a.span.start = b.span.start := by
        have hba := hle hy (mem_of_startingAt h (d := a) (by simp))
        have hab := hle hx (mem_of_startingAt h' (d := b) (by simp))
        omega
      obtain rfl : a = b := by
        have hhead := h a.span.start
        simp only [startingAt, List.filter_cons, hab, beq_self_eq_true, if_true] at hhead
        exact (List.cons.inj hhead).1
      have htails : ∀ k, startingAt k xs = startingAt k ys := by
        intro k
        have hk := h k
        by_cases he : a.span.start = k
        · simpa [startingAt, he] using hk
        · simpa [startingAt, he] using hk
      rw [ih (List.pairwise_cons.mp hx).2 (List.pairwise_cons.mp hy).2 htails
        (fun k => (htails k).symm)]

theorem stableSort_iff : StableSort ds sorted ↔ sorted = sortDiagnostics ds := by
  have hsort := sortDiagnostics_stableSort ds
  constructor
  · intro h
    apply h.inTextOrder.eq_of_startingAt hsort.inTextOrder
    intro k
    rw [h.stable, hsort.stable]
  · rintro rfl
    exact hsort

/-- The lexer goes through the text from left to right. -/
theorem inTextOrder_of_lex {text : String} (h : lex text = .error ds) : InTextOrder ds := by
  have haccounts := lexAccounts text
  rw [h] at haccounts
  exact haccounts.2.imp (fun hbefore => Nat.le_of_lt hbefore.1)

/-! ### The cap -/

/-- How many diagnostics a cap leaves out. -/
def suppressed (limit : Nat) (ds : List Diagnostic) : Nat :=
  if limit = 0 then 0 else ds.length - limit

theorem capDiagnostics_of_exceeds (hpos : limit ≠ 0) (h : limit < ds.length) :
    ∃ kept last, ds.take limit = kept ++ [last] ∧
      capDiagnostics limit ds = kept ++ [last.withNote
        (toString (ds.length - limit) ++ " more diagnostic(s) not shown")] := by
  have hne : ds.take limit ≠ [] := by
    apply List.ne_nil_of_length_pos
    rw [List.length_take]
    omega
  have hfits : ¬ (limit = 0 ∨ ds.length ≤ limit) := by omega
  refine ⟨(ds.take limit).dropLast, (ds.take limit).getLast hne,
    (List.dropLast_concat_getLast hne).symm, ?_⟩
  rw [capDiagnostics, if_neg hfits]
  simp [List.getLast?_eq_some_getLast hne]

theorem length_capDiagnostics_add (limit : Nat) (ds : List Diagnostic) :
    (capDiagnostics limit ds).length + suppressed limit ds = ds.length := by
  by_cases hfits : limit = 0 ∨ ds.length ≤ limit
  · rw [capDiagnostics_of_fits hfits, suppressed]
    split <;> omega
  · have hpos : limit ≠ 0 := by omega
    have hlt : limit < ds.length := by omega
    obtain ⟨kept, last, htake, hcap⟩ := capDiagnostics_of_exceeds hpos hlt
    have hlength := congrArg List.length htake
    simp only [List.length_take, List.length_append, List.length_singleton] at hlength
    rw [hcap, suppressed, if_neg hpos, List.length_append, List.length_singleton]
    omega

/-! ### Outcomes with another report -/

def JobFailure.mapReport (f : List Diagnostic → List Diagnostic) : JobFailure → JobFailure
  | compile ds text => compile (f ds) text
  | failure => failure

def Outcome.mapReport (f : List Diagnostic → List Diagnostic) : Outcome → Outcome
  | completed u ds text => completed u (f ds) text
  | failed failure => failed (failure.mapReport f)
  | cancelled => cancelled

/-- The failure apart from the diagnostics that it carries. -/
def JobFailure.kind : JobFailure → JobFailure := mapReport (fun _ => [])

section

variable (f : List Diagnostic → List Diagnostic) (o : Outcome)

theorem Outcome.state_mapReport : (o.mapReport f).state = o.state := by cases o <;> rfl

theorem Outcome.unit?_mapReport : (o.mapReport f).unit? = o.unit? := by cases o <;> rfl

theorem Outcome.text?_mapReport : (o.mapReport f).text? = o.text? := by
  cases o with
  | failed failure => cases failure <;> rfl
  | _ => rfl

theorem Outcome.failure?_mapReport :
    (o.mapReport f).failure?.map JobFailure.kind = o.failure?.map JobFailure.kind := by
  cases o with
  | failed failure => cases failure <;> rfl
  | _ => rfl

theorem Outcome.diagnostics_mapReport (hf : f [] = []) :
    (o.mapReport f).diagnostics = f o.diagnostics := by
  cases o with
  | completed u ds text => rfl
  | cancelled => exact hf.symm
  | failed failure =>
    cases failure with
    | compile ds text => rfl
    | io source error => exact hf.symm
    | tooLarge source size limit => exact hf.symm
    | aborted message => exact hf.symm

end

theorem JobFailure.mapReport_of_isUnread {failure : JobFailure} (h : failure.isUnread = true)
    (f : List Diagnostic → List Diagnostic) : failure.mapReport f = failure := by
  cases failure with
  | compile ds text => cases h
  | _ => rfl

theorem Outcome.diagnostics_of_isUnread {failure : JobFailure} (h : failure.isUnread = true) :
    (Outcome.failed failure).diagnostics = [] := by
  cases failure with
  | compile ds text => cases h
  | _ => rfl

theorem Outcome.eq_completed {o : Outcome} (h : o.state = .completed) :
    ∃ u text, o = .completed u o.diagnostics text := by
  cases o with
  | completed u ds text => exact ⟨u, text, rfl⟩
  | _ => cases h

/-! ### Jobs -/

namespace Job

variable {config : Config} {text : String} {u : CompilationUnit}

/-- The configuration that keeps all diagnostics. -/
abbrev uncapped (config : Config) : Config := { config with maxDiagnostics := 0 }

theorem failedWith_capped (config : Config) (ds : List Diagnostic) (text : String) :
    failedWith config ds text =
      (failedWith (uncapped config) ds text).mapReport (capDiagnostics config.maxDiagnostics) := by
  simp [failedWith, Outcome.mapReport, JobFailure.mapReport]

theorem finish_capped (config : Config) (text : String) (u : CompilationUnit)
    (ds : List Diagnostic) :
    finish config text u ds =
      (finish (uncapped config) text u ds).mapReport (capDiagnostics config.maxDiagnostics) := by
  simp only [finish]
  split
  · exact failedWith_capped config _ text
  · simp [Outcome.mapReport]

theorem process_capped (config : Config) (text : String) :
    (process config .never text).1 = (process (uncapped config) .never text).1.mapReport
      (capDiagnostics config.maxDiagnostics) := by
  rw [process_never, process_never]
  cases lexBy config.policy text with
  | error ds => exact failedWith_capped config ds text
  | ok tokens =>
    dsimp only
    split
    · exact failedWith_capped config _ text
    · exact finish_capped config text _ _

theorem run_capped (storage : Storage) (config : Config) (source : Source) :
    (run storage config source .never).outcome =
      (run storage (uncapped config) source .never).outcome.mapReport
        (capDiagnostics config.maxDiagnostics) := by
  rw [run_never_outcome, run_never_outcome]
  cases hread : source.read storage config.maxSourceBytes with
  | error failure =>
    simp only [Outcome.mapReport, JobFailure.mapReport_of_isUnread (Source.read_error hread)]
  | ok text => exact process_capped config text

theorem finish_completed {ds : List Diagnostic} {v : CompilationUnit} {text' : String}
    {report : List Diagnostic} (h : finish config text u ds = .completed v report text') :
    v = u ∧ text' = text ∧ report =
      capDiagnostics config.maxDiagnostics (sortDiagnostics (ds ++ checkUnit config.policy u)) := by
  simp only [finish] at h
  split at h
  · cases h
  · cases h
    exact ⟨rfl, rfl, rfl⟩

/-- A job is completed with a unit that the parser went through with. -/
theorem process_completed {text' : String} {report : List Diagnostic}
    (h : (process config .never text).1 = .completed u report text') :
    text' = text ∧ ∃ tokens ds, lexBy config.policy text = .ok tokens ∧
      (parseAsking config.policy .never tokens).1 = .complete u ds ∧ report =
        capDiagnostics config.maxDiagnostics (sortDiagnostics (ds ++ checkUnit config.policy u)) := by
  unfold process at h
  cases hlex : lexBy config.policy text with
  | error ds =>
    rw [hlex] at h
    cases h
  | ok tokens =>
    simp only [hlex] at h
    cases hparse : parseAsking config.policy .never tokens with
    | mk result asked =>
      simp only [hparse] at h
      cases result with
      | failed d => cases h
      | interrupted => cases h
      | complete v ds =>
        obtain ⟨rfl, htext, hreport⟩ := finish_completed h
        exact ⟨htext, tokens, ds, rfl, congrArg Prod.fst hparse, hreport⟩

theorem process_inTextOrder (config : Config) (text : String) :
    InTextOrder (process (uncapped config) .never text).1.diagnostics := by
  cases hlex : lex text with
  | error ds =>
    have hds := inTextOrder_of_lex hlex
    simp only [process_error hlex, failedWith, capDiagnostics_zero, Outcome.diagnostics]
    split
    · exact hds.sublist (List.take_sublist 1 ds)
    · exact hds
  | ok tokens =>
    cases hp : (uncapped config).policy with
    | accumulate =>
      rw [process_accumulate hp hlex, capDiagnostics_zero]
      exact (sortDiagnostics_stableSort _).inTextOrder
    | failFast =>
      rw [process_failFast hp hlex]
      cases faults text with
      | nil => exact List.Pairwise.nil
      | cons d more => exact List.pairwise_singleton _ d

theorem run_inTextOrder (storage : Storage) (config : Config) (source : Source) :
    InTextOrder (run storage (uncapped config) source .never).outcome.diagnostics := by
  rw [run_never_outcome]
  cases hread : source.read storage config.maxSourceBytes with
  | ok text => exact process_inTextOrder config text
  | error failure =>
    rw [Outcome.diagnostics_of_isUnread (Source.read_error hread)]
    exact List.Pairwise.nil

theorem run_completed {storage : Storage} {source : Source} {report : List Diagnostic}
    (h : (run storage config source .never).outcome = .completed u report text) :
    source.read storage config.maxSourceBytes = .ok text ∧ ∃ tokens ds,
      lexBy config.policy text = .ok tokens ∧
      (parseAsking config.policy .never tokens).1 = .complete u ds ∧ report =
        capDiagnostics config.maxDiagnostics (sortDiagnostics (ds ++ checkUnit config.policy u)) := by
  rw [run_never_outcome] at h
  cases hread : source.read storage config.maxSourceBytes with
  | error failure =>
    rw [hread] at h
    cases h
  | ok text' =>
    rw [hread] at h
    obtain ⟨rfl, hrest⟩ := process_completed h
    exact ⟨rfl, hrest⟩

end Job

/-- A cap on the number of diagnostics has no say in how a job ends. Without it, the report is in the
order of the text; if the job is completed, it is the stable sort of what the parser found and behind
that what the rules found. With it, the report is the same as long as it fits, and else its first
part with a note on the last diagnostic, which tells how many are left out. -/
theorem report_sorted_and_capped (storage : Storage) (config : Config) (source : Source) :
    let limit := config.maxDiagnostics
    let full := (Job.run storage { config with maxDiagnostics := 0 } source .never).outcome
    let o := (Job.run storage config source .never).outcome
    let all := full.diagnostics
    (o.state = full.state ∧ o.unit? = full.unit? ∧ o.text? = full.text? ∧
      o.failure?.map JobFailure.kind = full.failure?.map JobFailure.kind) ∧
    InTextOrder all ∧
    (full.state = .completed → ∃ u text tokens parsed, full = .completed u all text ∧
      source.read storage config.maxSourceBytes = .ok text ∧
      Job.lexBy config.policy text = .ok tokens ∧
      (parseAsking config.policy .never tokens).1 = .complete u parsed ∧
      ∀ sorted, StableSort (parsed ++ checkUnit config.policy u) sorted ↔ sorted = all) ∧
    (limit = 0 ∨ all.length ≤ limit → o.diagnostics = all) ∧
    (limit ≠ 0 → limit < all.length → ∃ kept last, all.take limit = kept ++ [last] ∧
      o.diagnostics = kept ++ [{ last with notes := last.notes ++
        [toString (all.length - limit) ++ " more diagnostic(s) not shown"] }]) ∧
    (all ≠ [] → o.diagnostics ≠ []) ∧
    o.diagnostics.length + suppressed limit all = all.length := by
  intro limit full o all
  have ho : o = full.mapReport (capDiagnostics limit) := Job.run_capped storage config source
  have hreport : o.diagnostics = capDiagnostics limit all := by
    rw [ho, Outcome.diagnostics_mapReport _ _ (capDiagnostics_nil limit)]
  rw [hreport]
  refine ⟨?_, Job.run_inTextOrder storage config source, fun hstate => ?_,
    capDiagnostics_of_fits, capDiagnostics_of_exceeds, fun hne hnil => ?_,
    length_capDiagnostics_add limit all⟩
  · rw [ho, Outcome.state_mapReport, Outcome.unit?_mapReport, Outcome.text?_mapReport,
      Outcome.failure?_mapReport]
    exact ⟨rfl, rfl, rfl, rfl⟩
  · obtain ⟨u, text, hfull⟩ := Outcome.eq_completed hstate
    obtain ⟨hread, tokens, parsed, hlex, hparse, hall⟩ := Job.run_completed hfull
    rw [capDiagnostics_zero] at hall
    refine ⟨u, text, tokens, parsed, hfull, hread, hlex, hparse, fun sorted => ?_⟩
    show _ ↔ sorted = full.diagnostics
    rw [hall]
    exact stableSort_iff
  · exact hne (capDiagnostics_eq_nil_iff.mp hnil)

/-- What a rule found stands before what the parser found, and is all that is kept. -/
theorem report_sorted_and_capped_mixed :
    let storage : Storage := fun _ => .error .notFound
    let config : Config := { policy := .accumulate, maxDiagnostics := 1 }
    let source : Source := .inline "a" "void f();void f();;"
    let clash : Diagnostic := .duplicateMethod "f()" ⟨14, 15⟩ ⟨5, 6⟩
    let stray : Diagnostic := .illegalToken ⟨.punct .semicolon, ";", ⟨18, 19⟩⟩ "type or 'void'"
    let full := (Job.run storage { config with maxDiagnostics := 0 } source .never).outcome
    let o := (Job.run storage config source .never).outcome
    full.state = .completed ∧ full.diagnostics = [clash, stray] ∧
      (∃ u parsed, full.unit? = some u ∧ ∀ sorted,
        StableSort (parsed ++ checkUnit .accumulate u) sorted ↔ sorted = [clash, stray]) ∧
      o.diagnostics = [clash.withNote "1 more diagnostic(s) not shown"] := by
  intro storage config source clash stray full o
  obtain ⟨-, -, hstable, -, hcapped, -, -⟩ := report_sorted_and_capped storage config source
  have hstate : full.state = .completed := by decide +kernel
  have hsort : StableSort [stray, clash] [clash, stray] := by
    refine ⟨.swap stray clash [], List.pairwise_pair.mpr (by decide), fun k => ?_⟩
    by_cases hk : 14 = k
    · subst hk
      rfl
    · have hclash : (clash.span.start == k) = false := beq_eq_false_iff_ne.mpr hk
      simp only [startingAt, List.filter_cons, hclash, Bool.false_eq_true, if_false]
  have hall : full.diagnostics = [clash, stray] := by
    have hlex : lex "void f();void f();;" = .ok ((lex "void f();void f();;").toOption.getD []) :=
      lex_of_toOption (by decide +kernel)
    have hfaults : Job.faults "void f();void f();;" = [stray, clash] := by decide +kernel
    have hprocess := Job.process_accumulate (show (Job.uncapped config).policy = _ from rfl) hlex
    rw [hfaults, ← stableSort_iff.mp hsort, capDiagnostics_zero] at hprocess
    exact congrArg Outcome.diagnostics ((run_never_outcome storage _ source).trans hprocess)
  obtain ⟨u, text, -, parsed, hfull, -, -, -, hsorted⟩ := hstable hstate
  have hunit : full.unit? = some u := congrArg Outcome.unit? hfull
  refine ⟨hstate, hall, ⟨u, parsed, hunit, fun sorted => (hsorted sorted).trans (by rw [hall])⟩, ?_⟩
  change 1 ≠ 0 → 1 < full.diagnostics.length → ∃ kept last, full.diagnostics.take 1 = kept ++ [last] ∧
    o.diagnostics = kept ++ [last.withNote
      (toString (full.diagnostics.length - 1) ++ " more diagnostic(s) not shown")] at hcapped
  rw [hall] at hcapped
  obtain ⟨kept, last, htake, ho⟩ := hcapped (by decide) (by decide)
  obtain ⟨rfl, hlast⟩ : kept = [] ∧ [last] = [clash] :=
    List.append_inj' (htake.symm.trans (List.nil_append [clash]).symm) rfl
  rw [ho, (List.cons.inj hlast).1]
  decide +kernel

end DeclFront
