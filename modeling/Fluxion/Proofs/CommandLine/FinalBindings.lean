import Mathlib.Data.List.Nodup
import Fluxion.Proofs.CommandLine.Binding
import Fluxion.Proofs.CommandLine.Report
import Fluxion.Proofs.Text.ByteOrder

/-! The last value of each name is all that the command makes of its bindings: their order, and the
values that later ones replace, leave no trace in what it prints. -/
namespace Fluxion.CommandLine

/-- `Defines raws name x`: the last text that gives the name a value gives it this one. -/
def Defines (raws : List String) (name : String) (x : Float) : Prop :=
  ∃ earlier raw later, raws = earlier ++ raw :: later ∧ Writes raw name x ∧
    ∀ other ∈ later, ∀ y, ¬ Writes other name y

theorem exists_readAll_iff {raws : List String} :
    (∃ bindings, ReadAll raws bindings) ↔ ∀ raw ∈ raws, ∃ name x, Writes raw name x := by
  constructor
  · rintro ⟨bindings, h⟩
    induction h with
    | nil => simp
    | cons h _ ih => exact List.forall_mem_cons.mpr ⟨⟨_, _, readBinding_eq_ok_iff.mp h⟩, ih⟩
  · intro h
    induction raws with
    | nil => exact ⟨[], .nil⟩
    | cons raw raws ih =>
      obtain ⟨⟨name, x, hraw⟩, hrest⟩ := List.forall_mem_cons.mp h
      obtain ⟨bindings, hbindings⟩ := ih hrest
      exact ⟨(name, x) :: bindings, .cons (readBinding_eq_ok_iff.mpr hraw) hbindings⟩

theorem defines_cons_iff {raw : String} {raws : List String} {name : String} {x : Float} :
    Defines (raw :: raws) name x ↔
      Defines raws name x ∨ (∀ other ∈ raws, ∀ y, ¬ Writes other name y) ∧ Writes raw name x := by
  constructor
  · rintro ⟨earlier, found, later, hraws, hfound, hlater⟩
    cases earlier with
    | nil =>
      obtain ⟨rfl, rfl⟩ := List.cons.inj hraws
      exact .inr ⟨hlater, hfound⟩
    | cons first earlier =>
      obtain ⟨rfl, rfl⟩ := List.cons.inj hraws
      exact .inl ⟨earlier, found, later, rfl, hfound, hlater⟩
  · rintro (⟨earlier, found, later, rfl, hfound, hlater⟩ | ⟨hraws, hraw⟩)
    · exact ⟨raw :: earlier, found, later, rfl, hfound, hlater⟩
    · exact ⟨[], raw, raws, rfl, hraw, hraws⟩

section
variable {raws : List String} {bindings : Bindings Float} (h : ReadAll raws bindings) {name : String}
include h

theorem writes_none_iff :
    (∀ other ∈ raws, ∀ y, ¬ Writes other name y) ↔ bindings.lookup name = none := by
  rw [Bindings.lookup_eq_none_iff]
  induction h with
  | nil => simp
  | @cons raw binding raws bindings hraw hrest ih =>
    obtain ⟨first, value⟩ := binding
    rw [List.forall_mem_cons, List.forall_mem_cons, ih]
    refine and_congr_left fun _ => ⟨?_, ?_⟩
    · rintro hnone rfl
      exact hnone value (readBinding_eq_ok_iff.mp hraw)
    · intro hne y hy
      rw [readBinding_eq_ok_iff.mpr hy] at hraw
      exact hne (congrArg Prod.fst (Except.ok.inj hraw)).symm

/-- Lookup finds what the texts define. -/
theorem defines_iff {x : Float} : Defines raws name x ↔ bindings.lookup name = some x := by
  induction h with
  | nil => simp [Defines, Bindings.lookup]
  | @cons raw binding raws bindings hraw hrest ih =>
    obtain ⟨first, value⟩ := binding
    rw [defines_cons_iff, ih, writes_none_iff hrest, Bindings.lookup_cons, Option.or_eq_some_iff,
      ← readBinding_eq_ok_iff, hraw]
    simp

end

/-! Labels. -/

section
variable {bindings : Bindings Float}

/-- Names without `=` keep the texts of different names apart. -/
theorem nodup_bindingText (h : ∀ binding ∈ bindings, '=' ∉ binding.1.toList) :
    (bindings.latest.map bindingText).Nodup := by
  have hname : (bindings.latest.map bindingText).map (fun text => text.toList.takeWhile (· ≠ '=')) =
      (bindings.latest.map Prod.fst).map String.toList := by
    rw [List.map_map, List.map_map]
    apply List.map_congr_left
    rintro ⟨name, x⟩ hmem
    have hequals := h _ (Bindings.mem_of_lookup (Bindings.mem_latest_iff.mp hmem))
    have hhead : ∀ c ∈ ('=' :: (doubleText x).toList).head?, c = '=' := by simp
    simpa [bindingText] using (split_at_equals hequals hhead).1
  apply List.Nodup.of_map
  rw [hname]
  exact Bindings.latest_nodup.map fun s t => String.toList_inj.mp

def mayPrecede (s t : String) : Bool := !decide (bytes t < bytes s)

theorem mayPrecede_iff {s t : String} : mayPrecede s t = true ↔ s ≤ t := by
  simp only [mayPrecede, bytes_lt_iff, Bool.not_eq_true', decide_eq_false_iff_not, String.not_lt]

theorem pairwise_mergeSort_mayPrecede (texts : List String) :
    (texts.mergeSort mayPrecede).Pairwise (mayPrecede · ·) := by
  apply List.pairwise_mergeSort
  · intro a b c
    simp only [mayPrecede_iff]
    exact String.le_trans
  · intro a b
    simpa [mayPrecede_iff] using String.le_total a b

/-- The order of texts before they are sorted does not matter. -/
theorem mergeSort_mayPrecede_congr {texts texts' : List String} (h : texts.Perm texts') :
    texts.mergeSort mayPrecede = texts'.mergeSort mayPrecede := by
  refine List.Perm.eq_of_pairwise (fun s t _ _ hst hts => ?_)
    (pairwise_mergeSort_mayPrecede texts) (pairwise_mergeSort_mayPrecede texts')
    ((List.mergeSort_perm _ _).trans (h.trans (List.mergeSort_perm _ _).symm))
  exact String.le_antisymm (mayPrecede_iff.mp hst) (mayPrecede_iff.mp hts)

theorem labelTexts_eq :
    labelTexts bindings = (bindings.latest.map bindingText).mergeSort mayPrecede := by
  have hmay : (fun s t : String => !decide (t < s)) = mayPrecede := by
    funext s t
    simp only [mayPrecede, bytes_lt_iff]
  rw [labelTexts, hmay]

/-- A label is the same in whichever order its entries are sorted from. -/
theorem labelTexts_of_perm {entries : List (String × Float)} (h : entries.Perm bindings.latest) :
    labelTexts bindings = (entries.map bindingText).mergeSort mayPrecede := by
  rw [labelTexts_eq, mergeSort_mayPrecede_congr (h.map bindingText)]

/-- The texts of a label increase byte by byte. -/
theorem labelTexts_increase (h : ∀ binding ∈ bindings, '=' ∉ binding.1.toList) :
    (labelTexts bindings).Pairwise fun s t => bytes s < bytes t := by
  rw [labelTexts_eq]
  have hnodup : ((bindings.latest.map bindingText).mergeSort mayPrecede).Nodup :=
    (List.mergeSort_perm _ _).nodup_iff.mpr (nodup_bindingText h)
  refine (pairwise_mergeSort_mayPrecede _).imp₂ (fun s t hst hne => ?_) hnodup
  apply bytes_lt_iff.mpr
  by_contra hlt
  exact hne (String.le_antisymm (mayPrecede_iff.mp hst) (String.not_lt.mp hlt))

end

/-- `Lists raws entries`: one entry for each name that the texts define, in any order. -/
structure Lists (raws : List String) (entries : List (String × Float)) : Prop where
  nodup : (entries.map Prod.fst).Nodup
  mem_iff : ∀ name x, (name, x) ∈ entries ↔ Defines raws name x

section
variable {raws : List String} {bindings : Bindings Float} (h : ReadAll raws bindings)
include h

theorem lists_of_perm {entries : List (String × Float)} (hperm : entries.Perm bindings.latest) :
    Lists raws entries where
  nodup := (hperm.map Prod.fst).nodup_iff.mpr Bindings.latest_nodup
  mem_iff name x := by rw [hperm.mem_iff, Bindings.mem_latest_iff, defines_iff h]

theorem name_of_readAll : ∀ binding ∈ bindings, '=' ∉ binding.1.toList := by
  induction h with
  | nil => simp
  | cons hraw _ ih => exact List.forall_mem_cons.mpr ⟨(readBinding_eq_ok_iff.mp hraw).name.1, ih⟩

theorem labelTexts_of_lists {entries : List (String × Float)} (hentries : Lists raws entries) :
    labelTexts bindings = (entries.map bindingText).mergeSort mayPrecede :=
  labelTexts_of_perm <| Bindings.perm_latest hentries.nodup fun name x => by
    rw [hentries.mem_iff, defines_iff h]

theorem lookup_congr {raws' : List String} {bindings' : Bindings Float}
    (h' : ReadAll raws' bindings') (hsame : ∀ name x, Defines raws name x ↔ Defines raws' name x)
    (name : String) : bindings.lookup name = bindings'.lookup name := by
  apply Option.ext
  intro x
  rw [← defines_iff h, ← defines_iff h', hsame]

end

section
variable {bindings bindings' : Bindings Float}
  (h : ∀ name, bindings.lookup name = bindings'.lookup name)
include h

theorem bindingsLabel_congr : bindingsLabel bindings = bindingsLabel bindings' := by
  have hperm : bindings'.latest.Perm bindings.latest :=
    Bindings.perm_latest Bindings.latest_nodup fun name x => by rw [Bindings.mem_latest_iff, h]
  rw [bindingsLabel_eq, bindingsLabel_eq, labelTexts_of_perm hperm, labelTexts_eq]

/-- A report depends on nothing but the final value of each name. -/
theorem report_congr (name : String) (e : Expr) :
    report bindings name e = report bindings' name e := by
  have hvalue (heading complaint : String) (e : Expr) :
      valueLine heading complaint bindings e = valueLine heading complaint bindings' e := by
    rw [valueLine, valueLine, Expr.evaluate, Expr.evaluate,
      Expr.evaluateWith_congr fun name _ => h name]
  rw [report, report, bindingsLabel_congr h]
  simp only [hvalue]

theorem answer_congr (a : Arguments) :
    answer { a with bindings } = answer { a with bindings := bindings' } := by
  simp only [answer, report_congr h]

end

/-- The command answers alike wherever the last values of names are the same, whatever else is said
of them and in which order. So options that give the same last values may replace each other before
all other arguments. Where a value is printed, the label before it has an entry for each name that is
bound, with the last value, and the texts increase byte by byte; it is the same label in whichever
order entries are sorted from. -/
theorem run_depends_on_final_bindings {read : List String → Except Outcome Arguments}
    (h : Reads read) :
    (∀ {arguments arguments' raws raws' : List String} {a : Arguments}
      {bindings bindings' : Bindings Float}, read arguments = .ok { a with bindings } →
      read arguments' = .ok { a with bindings := bindings' } →
      ReadAll raws bindings → ReadAll raws' bindings' →
      (∀ name x, Defines raws name x ↔ Defines raws' name x) →
      runWith read arguments = runWith read arguments') ∧
    (∀ {given given' raws raws' rest : List String} {a : Arguments}, Gives given raws →
      Gives given' raws' → (∀ raw ∈ raws, ∃ name x, Writes raw name x) →
      (∀ raw ∈ raws', ∃ name x, Writes raw name x) →
      (∀ name x, Defines raws name x ↔ Defines raws' name x) → read rest = .ok a →
      runWith read (given ++ rest) = runWith read (given' ++ rest)) ∧
    ∀ {arguments raws : List String} {a : Arguments} {e : Expr}, read arguments = .ok a →
      Expr.parseWithin a.limit a.formula = .ok e → ReadAll raws a.bindings →
      (∃ entries, Lists raws entries) ∧ ∀ entries, Lists raws entries →
        ((entries.map bindingText).mergeSort mayPrecede).Pairwise (fun s t => bytes s < bytes t) ∧
        (runWith read arguments).ShowsLabel a e
          (labelOf ((entries.map bindingText).mergeSort mayPrecede)) := by
  refine ⟨fun {arguments arguments' raws raws' a bindings bindings'} ha ha' hread hread' hsame => ?_,
    fun {given given' raws raws' rest a} hgiven hgiven' hwrites hwrites' hsame hrest => ?_,
    fun {arguments raws a e} ha he hread => ⟨⟨_, lists_of_perm hread (.refl _)⟩, fun entries hentries => ?_⟩⟩
  · rw [runWith, runWith, ha, ha']
    exact answer_congr (lookup_congr hread hread' hsame) a
  · obtain ⟨bindings, hread⟩ := exists_readAll_iff.mpr hwrites
    obtain ⟨bindings', hread'⟩ := exists_readAll_iff.mpr hwrites'
    have hlookup (name : String) : (bindings ++ a.bindings).lookup name =
        (bindings' ++ a.bindings).lookup name := by
      rw [Bindings.lookup_append, Bindings.lookup_append, lookup_congr hread hread' hsame]
    rw [runWith, runWith, h.gives hgiven hread hrest, h.gives hgiven' hread' hrest]
    exact answer_congr hlookup a
  · rw [← labelTexts_of_lists hread hentries]
    exact ⟨labelTexts_increase (name_of_readAll hread), runWith_showsLabel ha he⟩

/-- Two ways to bind `x` to two and `y` to three. -/
theorem run_depends_on_final_bindings_product :
    let arguments := ["x * y", "--var", "y=3", "--var", " x =1", "--var", "x=2"]
    let arguments' := ["--var", "x=2", "x * y", "--var", "y = 3"]
    let a : Arguments := ⟨"x * y", [("y", 3.0), ("x", 1.0), ("x", 2.0)], "x", 512⟩
    let product := Expr.mul (.variable "x") (.variable "y")
    run arguments = run arguments' ∧
      run (["--var=" ++ "y=3", "--var", " x =1", "--var=" ++ "x=2"] ++ ["x * y"]) =
        run (["--var=" ++ "x=2", "--var", "y = 3"] ++ ["x * y"]) ∧
      readArguments arguments = .ok a ∧ Expr.parseWithin 512 "x * y" = .ok product ∧
      Lists ["y=3", " x =1", "x=2"] [("x", 2.0), ("y", 3.0)] ∧
      (["x=2", "y=3"].Pairwise fun s t => bytes s < bytes t) ∧
      (run arguments).ShowsLabel a product "[x=2, y=3]" := by
  intro arguments arguments' a product
  have hy : readBinding "y=3" = .ok ("y", 3.0) := by decide +kernel
  have hfirst : readBinding " x =1" = .ok ("x", 1.0) := by decide +kernel
  have hx : readBinding "x=2" = .ok ("x", 2.0) := by decide +kernel
  have hy' : readBinding "y = 3" = .ok ("y", 3.0) := by decide +kernel
  have hread : ReadAll ["y=3", " x =1", "x=2"] a.bindings := .cons hy (.cons hfirst (.cons hx .nil))
  have hread' : ReadAll ["x=2", "y = 3"] [("x", 2.0), ("y", 3.0)] := .cons hx (.cons hy' .nil)
  have hlists : Lists ["y=3", " x =1", "x=2"] [("x", 2.0), ("y", 3.0)] :=
    lists_of_perm hread (by decide +kernel)
  have hlists' : Lists ["x=2", "y = 3"] [("x", 2.0), ("y", 3.0)] :=
    lists_of_perm hread' (by decide +kernel)
  have hsame (name : String) (x : Float) : Defines ["y=3", " x =1", "x=2"] name x ↔
      Defines ["x=2", "y = 3"] name x :=
    (hlists.mem_iff name x).symm.trans (hlists'.mem_iff name x)
  have ha : readArguments arguments = .ok a := by decide +kernel
  have ha' : readArguments arguments' = .ok { a with bindings := [("x", 2.0), ("y", 3.0)] } := by
    decide +kernel
  have hrest : readArguments ["x * y"] = .ok { a with bindings := [] } := by decide +kernel
  have he : Expr.parseWithin 512 "x * y" = .ok product := by decide +kernel
  have htexts : [("x", 2.0), ("y", 3.0)].map bindingText = ["x=2", "y=3"] := by decide +kernel
  have hsorted : ["x=2", "y=3"].mergeSort mayPrecede = ["x=2", "y=3"] :=
    List.mergeSort_of_pairwise (by decide +kernel)
  have hgiven : Gives ["--var=" ++ "y=3", "--var", " x =1", "--var=" ++ "x=2"]
      ["y=3", " x =1", "x=2"] := .joined "y=3" (.apart (by decide) (.joined "x=2" .nil))
  have hgiven' : Gives ["--var=" ++ "x=2", "--var", "y = 3"] ["x=2", "y = 3"] :=
    .joined "x=2" (.apart (by decide) .nil)
  obtain ⟨hruns, hoptions, hlabels⟩ := run_depends_on_final_bindings readArguments_reads
  obtain ⟨hincrease, hshows⟩ := (hlabels ha he hread).2 _ hlists
  rw [htexts, hsorted] at hincrease hshows
  refine ⟨hruns (a := a) ha ha' hread hread' hsame, ?_, ha, he, hlists, hincrease, hshows⟩
  exact hoptions hgiven hgiven' (exists_readAll_iff.mp ⟨_, hread⟩)
    (exists_readAll_iff.mp ⟨_, hread'⟩) hsame hrest

end Fluxion.CommandLine
