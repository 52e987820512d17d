import Fluxion.Proofs.Bindings
import Fluxion.Proofs.CommandLine.Reading
import Fluxion.Proofs.CommandLine.Report
import Fluxion.Proofs.Number.DoubleSyntax
import Fluxion.Proofs.Text.Trimming

/-! Bindings as texts: which texts bind a name, and how what is printed of a binding binds it
again. -/
namespace Fluxion.CommandLine

/-- `Writes raw name x`: the first `=` of a text divides it into a name and a double, each perhaps
among blanks. -/
def Writes (raw name : String) (x : Float) : Prop :=
  ∃ before value, raw.toList = before ++ '=' :: value ∧ '=' ∉ before ∧
    trimBlanks before = name.toList ∧ readDouble (trimBlanks value) = .ok x

theorem readBinding_of_unseparated {raw : String} (h : '=' ∉ raw.toList) :
    readBinding raw = .error .unseparated := by
  have hrest : raw.toList.dropWhile (· ≠ '=') = [] := by
    rw [List.dropWhile_eq_nil_iff]
    exact fun c hc => by simpa using ne_of_mem_of_not_mem hc h
  simp only [readBinding, hrest]

theorem readBinding_of_separated {raw : String} {before value : List Char}
    (hraw : raw.toList = before ++ '=' :: value) (hbefore : '=' ∉ before) :
    readBinding raw =
      ((readDouble (trimBlanks value)).mapError (BindingFault.value (String.ofList before))).map
        fun x => (String.ofList (trimBlanks before), x) := by
  have hhead : ∀ c ∈ ('=' :: value).head?, c = '=' := by simp
  obtain ⟨htake, hdrop⟩ := split_at_equals hbefore hhead
  simp only [readBinding, hraw, htake, hdrop]
  cases readDouble (trimBlanks value) <;> rfl

/-- The texts that bind a name. -/
theorem readBinding_eq_ok_iff {raw name : String} {x : Float} :
    readBinding raw = .ok (name, x) ↔ Writes raw name x := by
  constructor
  · intro h
    by_cases hmem : '=' ∈ raw.toList
    · obtain ⟨before, value, hraw, hbefore⟩ := List.eq_append_cons_of_mem hmem
      rw [readBinding_of_separated hraw hbefore] at h
      obtain ⟨y, hread, hpair⟩ := map_eq_ok.mp h
      obtain ⟨rfl, rfl⟩ := Prod.mk.inj hpair
      exact ⟨before, value, hraw, hbefore, String.toList_ofList.symm, mapError_eq_ok.mp hread⟩
    · rw [readBinding_of_unseparated hmem] at h
      cases h
  · rintro ⟨before, value, hraw, hbefore, hname, hread⟩
    rw [readBinding_of_separated hraw hbefore, hread, hname, String.ofList_toList]
    rfl

theorem readBinding_refused_of_separated {raw : String} {before value : List Char}
    (hraw : raw.toList = before ++ '=' :: value) (hbefore : '=' ∉ before) :
    (∃ fault, readBinding raw = .error fault) ↔ ¬ IsDouble (trimBlanks value) := by
  rw [readBinding_of_separated hraw hbefore, ← readDouble_isOk_iff]
  cases readDouble (trimBlanks value) <;> simp [Except.mapError, Except.map]

/-- A text binds nothing exactly if it has no `=`, or behind the first one no double. -/
theorem readBinding_refused_iff {raw : String} :
    (∃ fault, readBinding raw = .error fault) ↔ '=' ∉ raw.toList ∨
      ∃ before value, raw.toList = before ++ '=' :: value ∧ '=' ∉ before ∧
        ¬ IsDouble (trimBlanks value) := by
  constructor
  · intro h
    by_cases hmem : '=' ∈ raw.toList
    · obtain ⟨before, value, hraw, hbefore⟩ := List.eq_append_cons_of_mem hmem
      exact .inr ⟨before, value, hraw, hbefore,
        (readBinding_refused_of_separated hraw hbefore).mp h⟩
    · exact .inl hmem
  · rintro (hmem | ⟨before, value, hraw, hbefore, hvalue⟩)
    · exact ⟨_, readBinding_of_unseparated hmem⟩
    · exact (readBinding_refused_of_separated hraw hbefore).mpr hvalue

/-- A name that is bound has no `=` and no outer blanks. -/
theorem Writes.name {raw name : String} {x : Float} (h : Writes raw name x) :
    '=' ∉ name.toList ∧ Unpadded name.toList := by
  obtain ⟨before, value, -, hbefore, hname, -⟩ := h
  obtain ⟨front, back, -, -, hunpadded, hsplit⟩ := exists_pad before
  rw [hname] at hunpadded hsplit
  refine ⟨fun hmem => hbefore ?_, hunpadded⟩
  rw [hsplit]
  simp [hmem]

def bindingText (binding : String × Float) : String := binding.1 ++ "=" ++ doubleText binding.2

theorem unpadded_doubleText (x : Float) : Unpadded (doubleText x).toList := by
  have hdouble : IsDouble (doubleText x).toList :=
    readDouble_isOk_iff.mp ⟨x, readDouble_doubleText x⟩
  exact unpadded_of_unblank hdouble.unblank

section
variable {name : String} (x : Float) (hname : '=' ∉ name.toList) (hunpadded : Unpadded name.toList)
include hname hunpadded

/-- A name and the text of a double are read back from among blanks. -/
theorem readBinding_padded {beforeName afterName beforeValue afterValue : List Char}
    (hblank : (beforeName ++ afterName ++ beforeValue ++ afterValue).all isBlank = true) :
    readBinding (String.ofList (beforeName ++ name.toList ++ afterName ++
      '=' :: (beforeValue ++ (doubleText x).toList ++ afterValue))) = .ok (name, x) := by
  simp only [List.all_append, Bool.and_eq_true] at hblank
  obtain ⟨⟨⟨hbeforeName, hafterName⟩, hbeforeValue⟩, hafterValue⟩ := hblank
  have hblank_ne {cs : List Char} (h : cs.all isBlank = true) : '=' ∉ cs := by
    intro hmem
    cases List.all_eq_true.mp h _ hmem
  refine readBinding_eq_ok_iff.mpr ⟨_, _, String.toList_ofList, ?_,
    trimBlanks_pad hbeforeName hafterName hunpadded, ?_⟩
  · simp [hname, hblank_ne hbeforeName, hblank_ne hafterName]
  · rw [trimBlanks_pad hbeforeValue hafterValue (unpadded_doubleText x)]
    exact readDouble_doubleText x

theorem readBinding_bindingText : readBinding (bindingText (name, x)) = .ok (name, x) := by
  refine readBinding_eq_ok_iff.mpr ⟨name.toList, (doubleText x).toList, by simp [bindingText],
    hname, trimBlanks_of_unpadded hunpadded, ?_⟩
  rw [trimBlanks_of_unpadded (unpadded_doubleText x)]
  exact readDouble_doubleText x

end

/-! Bindings in a label. -/

def labelTexts (bindings : Bindings Float) : List String :=
  (bindings.latest.map bindingText).mergeSort fun a b => !decide (b < a)

def labelOf (texts : List String) : String := "[" ++ ", ".intercalate texts ++ "]"

theorem bindingsLabel_eq (bindings : Bindings Float) :
    bindingsLabel bindings = labelOf (labelTexts bindings) := rfl

theorem mem_labelTexts_iff {bindings : Bindings Float} {text : String} :
    text ∈ labelTexts bindings ↔
      ∃ name x, bindings.lookup name = some x ∧ bindingText (name, x) = text := by
  simp only [labelTexts, List.mem_mergeSort, List.mem_map, Prod.exists, Bindings.mem_latest_iff]

/-- A name without `=` and outer blanks is bound to any double by the text that is printed of the
binding, also among blanks. So the texts in the label of a run, one for each name that is bound, bind
their names again, be it behind the option and a `=` or as arguments of their own; only a text that
begins as options do has to stand behind the `=`. What binds nothing has no `=`, or behind the first
one no double; and what is bound is such a name. -/
theorem bindings_round_trip {read : List String → Except Outcome Arguments} (h : Reads read) :
    (∀ {name : String} (x : Float) {beforeName afterName beforeValue afterValue : List Char},
      '=' ∉ name.toList → Unpadded name.toList →
      (beforeName ++ afterName ++ beforeValue ++ afterValue).all isBlank = true →
      readBinding (String.ofList (beforeName ++ name.toList ++ afterName ++
        '=' :: (beforeValue ++ (doubleText x).toList ++ afterValue))) = .ok (name, x)) ∧
    (∀ {arguments : List String} {a : Arguments} {e : Expr}, read arguments = .ok a →
      Expr.parseWithin a.limit a.formula = .ok e →
      (runWith read arguments).ShowsLabel a e (labelOf (labelTexts a.bindings)) ∧
      ∀ name x, a.bindings.lookup name = some x →
        bindingText (name, x) ∈ labelTexts a.bindings) ∧
    (∀ {arguments : List String} {a : Arguments}, read arguments = .ok a →
      ∀ text ∈ labelTexts a.bindings, ∃ name x, text = name ++ "=" ++ doubleText x ∧
        a.bindings.lookup name = some x ∧ readBinding text = .ok (name, x) ∧
        ∀ {rest : List String} {b : Arguments}, read rest = .ok b →
          read (("--var=" ++ text) :: rest) = .ok { b with bindings := (name, x) :: b.bindings } ∧
          (text.toList.head? ≠ some '-' →
            read ("--var" :: text :: rest) = .ok { b with bindings := (name, x) :: b.bindings })) ∧
    (∀ {raw : String}, (∃ fault, readBinding raw = .error fault) ↔ '=' ∉ raw.toList ∨
      ∃ before value, raw.toList = before ++ '=' :: value ∧ '=' ∉ before ∧
        ¬ IsDouble (trimBlanks value)) ∧
    ∀ {raw name : String} {x : Float}, readBinding raw = .ok (name, x) →
      '=' ∉ name.toList ∧ Unpadded name.toList := by
  refine ⟨fun x => fun hname hunpadded => readBinding_padded x hname hunpadded,
    fun ha he => ⟨runWith_showsLabel ha he, fun name x hx =>
      mem_labelTexts_iff.mpr ⟨name, x, hx, rfl⟩⟩, ?_,
    readBinding_refused_iff, fun h => (readBinding_eq_ok_iff.mp h).name⟩
  intro arguments a ha text htext
  obtain ⟨name, x, hx, rfl⟩ := mem_labelTexts_iff.mp htext
  obtain ⟨raw, hraw⟩ := h.binding_read ha _ (Bindings.mem_of_lookup hx)
  have hwrites := readBinding_eq_ok_iff.mp hraw
  have hread := readBinding_bindingText x hwrites.name.1 hwrites.name.2
  exact ⟨name, x, rfl, hx, hread, fun hrest =>
    ⟨h.joined hread hrest, fun hhead => h.apart hhead hread hrest⟩⟩

/-- A name bound to infinity by a decimal that is too large, and bound again by the label. -/
theorem bindings_round_trip_infinity :
    let arguments := ["x", "--var", " x = 1e400"]
    let a : Arguments := ⟨"x", [("x", 1.0 / 0.0)], "x", 512⟩
    let b : Arguments := ⟨"x", [], "x", 512⟩
    '=' ∉ "x".toList ∧ Unpadded "x".toList ∧ [' ', '\t', ' '].all isBlank = true ∧
      readBinding (String.ofList ([' '] ++ "x".toList ++ ['\t'] ++
        '=' :: ([' '] ++ (doubleText (1.0 / 0.0)).toList ++ []))) = .ok ("x", 1.0 / 0.0) ∧
      readArguments arguments = .ok a ∧ Expr.parseWithin 512 "x" = .ok (.variable "x") ∧
      (runWith readArguments arguments).ShowsLabel a (.variable "x") "[x=inf]" ∧
      readArguments ["x"] = .ok b ∧
      readArguments ["--var=x=inf", "x"] = .ok { b with bindings := [("x", 1.0 / 0.0)] } ∧
      readArguments ["--var", "x=inf", "x"] = .ok { b with bindings := [("x", 1.0 / 0.0)] } ∧
      ∃ name x, readBinding " x = 1e400" = .ok (name, x) ∧
        '=' ∉ name.toList ∧ Unpadded name.toList := by
  intro arguments a b
  obtain ⟨hpadded, hlabel, hagain, -, hname⟩ := bindings_round_trip readArguments_reads
  have hequals : '=' ∉ "x".toList := by decide
  have hunpadded : Unpadded "x".toList := unpadded_of_unblank (List.forall_mem_singleton.mpr rfl)
  have ha : readArguments arguments = .ok a := by decide +kernel
  have he : Expr.parseWithin 512 "x" = .ok (.variable "x") := by decide +kernel
  have hb : readArguments ["x"] = .ok b := by decide +kernel
  have hread : readBinding " x = 1e400" = .ok ("x", 1.0 / 0.0) := by decide +kernel
  have htexts : labelTexts a.bindings = ["x=inf"] := by decide +kernel
  have htext : "x=inf" ∈ labelTexts a.bindings := by simp [htexts]
  obtain ⟨hshows, -⟩ := hlabel ha he
  rw [htexts] at hshows
  obtain ⟨name, x, -, -, htextRead, hrest⟩ := hagain ha _ htext
  have hcomputed : readBinding "x=inf" = .ok ("x", 1.0 / 0.0) := by decide +kernel
  obtain ⟨rfl, rfl⟩ := Prod.mk.inj (Except.ok.inj (htextRead.symm.trans hcomputed))
  obtain ⟨hjoined, hapart⟩ := hrest hb
  exact ⟨hequals, hunpadded, rfl, hpadded _ hequals hunpadded rfl, ha, he, hshows, hb, hjoined,
    hapart (by decide), _, _, hread, hname hread⟩

/-- The label of a run may hold a text that begins as options do. It binds its name, but as an
argument of its own it is taken for an option, which is unknown. -/
theorem bindings_round_trip_hyphen :
    readArguments ["--var=-x=2", "1"] = .ok ⟨"1", [("-x", 2.0)], "x", 512⟩ ∧
      run ["--var=-x=2", "1"] = ⟨0, "1\n [-x=2]           1\n diff x           0\n diff x [-x=2]    0\n", []⟩ ∧
      readBinding "-x=2" = .ok ("-x", 2.0) ∧
      run ["--var", "-x=2", "1"] = ⟨2, "", ["error: unexpected argument '-x' found"]⟩ := by
  decide +kernel

end Fluxion.CommandLine
