import Fluxion.CommandLine.Report
import Fluxion.Proofs.Outcome
import Fluxion.Proofs.Token.Spelling

/-! What the command relies on in its reader of arguments, and that the usual reader does it. -/
namespace Fluxion.CommandLine

/-- What the command relies on in a reader of arguments. The text of a binding stands behind its option
and a `=`, or it is the next argument, unless it begins as options do. Each of these texts is read as
a binding, and bindings keep their order. -/
structure Reads (read : List String → Except Outcome Arguments) : Prop where
  joined {raw : String} {binding : String × Float} {rest : List String} {a : Arguments} :
    readBinding raw = .ok binding → read rest = .ok a →
      read (("--var=" ++ raw) :: rest) = .ok { a with bindings := binding :: a.bindings }
  apart {raw : String} {binding : String × Float} {rest : List String} {a : Arguments} :
    raw.toList.head? ≠ some '-' → readBinding raw = .ok binding → read rest = .ok a →
      read ("--var" :: raw :: rest) = .ok { a with bindings := binding :: a.bindings }
  binding_read {arguments : List String} {a : Arguments} :
    read arguments = .ok a → ∀ binding ∈ a.bindings, ∃ raw, readBinding raw = .ok binding

abbrev ReadAll : List String → Bindings Float → Prop :=
  List.Forall₂ fun raw binding => readBinding raw = .ok binding

/-- `Gives arguments raws`: the arguments give these texts for bindings, and nothing else. -/
inductive Gives : List String → List String → Prop
  | nil : Gives [] []
  | joined {arguments raws : List String} (raw : String) (h : Gives arguments raws) :
      Gives (("--var=" ++ raw) :: arguments) (raw :: raws)
  | apart {arguments raws : List String} {raw : String} (hraw : raw.toList.head? ≠ some '-')
      (h : Gives arguments raws) : Gives ("--var" :: raw :: arguments) (raw :: raws)

/-- Texts that can be read come before all other bindings. -/
theorem Reads.gives {read : List String → Except Outcome Arguments} (h : Reads read)
    {given raws rest : List String} (hgiven : Gives given raws) {bindings : Bindings Float}
    (hraws : ReadAll raws bindings) {a : Arguments} (hrest : read rest = .ok a) :
    read (given ++ rest) = .ok { a with bindings := bindings ++ a.bindings } := by
  induction hgiven generalizing bindings with
  | nil =>
    cases hraws
    exact hrest
  | joined raw _ ih =>
    obtain ⟨binding, others, hraw, hothers, rfl⟩ := List.forall₂_cons_left_iff.mp hraws
    exact h.joined hraw (ih hothers)
  | apart hhead _ ih =>
    obtain ⟨binding, others, hraw, hothers, rfl⟩ := List.forall₂_cons_left_iff.mp hraws
    exact h.apart hhead hraw (ih hothers)

/-! The usual reader. -/

/-- The first `=` divides a text. -/
theorem split_at_equals {before rest : List Char} (hbefore : '=' ∉ before)
    (hrest : ∀ c ∈ rest.head?, c = '=') :
    (before ++ rest).takeWhile (· ≠ '=') = before ∧
      (before ++ rest).dropWhile (· ≠ '=') = rest := by
  have hall : before.all (fun c => decide (c ≠ '=')) = true := by
    simpa using fun c hc => ne_of_mem_of_not_mem hc hbefore
  have hstop : ∀ c ∈ rest.head?, decide (c ≠ '=') = false := by simpa using hrest
  exact ⟨takeWhile_append_of_stop hall hstop, dropWhile_append_of_stop hall hstop⟩

section
variable {raw : String} (rest : List String)

private theorem binding_flag : Setting.ofFlag? "--var" = some .binding := by decide

theorem items_joined (raw : String) :
    items (("--var=" ++ raw) :: rest) = .ok (.option .binding raw) :: items rest := by
  have hargument : ("--var=" ++ raw).toList =
      '-' :: '-' :: 'v' :: 'a' :: 'r' :: '=' :: raw.toList := by simp
  rw [items]
  simp [hargument, binding_flag]

theorem items_apart (h : raw.toList.head? ≠ some '-') :
    items ("--var" :: raw :: rest) = .ok (.option .binding raw) :: items rest := by
  have hargument : "--var".toList = '-' :: '-' :: 'v' :: 'a' :: ['r'] := by decide
  have hvalue : isFlag raw.toList = false := by
    unfold isFlag
    split
    · next heq => simp [heq] at h
    · rfl
  rw [items]
  simp [hargument, binding_flag, hvalue]

end

namespace Draft
variable {d d' : Draft}

def behind (bindings : Bindings Float) (d : Draft) : Draft :=
  { d with bindings := bindings ++ d.bindings }

theorem take_behind (bindings : Bindings Float) (d : Draft) (item : Item) :
    (d.behind bindings).take item = (d.take item).map (behind bindings) := by
  obtain ⟨formula, given, name, limit⟩ := d
  cases item with
  | formula text => cases formula <;> rfl
  | option setting raw =>
    cases setting with
    | binding =>
      simp only [take, behind]
      cases readBinding raw <;> simp [Except.map, behind]
    | name => cases name <;> rfl
    | limit =>
      cases limit with
      | some limit => rfl
      | none =>
        simp only [take, behind]
        cases readLimit raw <;> rfl

/-- Bindings given before stay before what items give. -/
theorem takeAll_behind (bindings : Bindings Float) (d : Draft) (found : List (Except Ending Item)) :
    (d.behind bindings).takeAll found = (d.takeAll found).map (behind bindings) := by
  rw [takeAll, takeAll]
  induction found generalizing d with
  | nil => rfl
  | cons item found ih =>
    rw [List.foldlM_cons, List.foldlM_cons]
    cases item with
    | error ending => rfl
    | ok item =>
      simp only [Except.bind, take_behind]
      cases d.take item with
      | error ending => rfl
      | ok next => exact ih next

theorem finish_behind (bindings : Bindings Float) (d : Draft) :
    (d.behind bindings).finish =
      d.finish.map fun a => { a with bindings := bindings ++ a.bindings } := by
  obtain ⟨formula, given, name, limit⟩ := d
  cases formula <;> rfl

def Sound (d : Draft) : Prop := ∀ binding ∈ d.bindings, ∃ raw, readBinding raw = .ok binding

theorem Sound.take {item : Item} (h : d.take item = .ok d') (hd : d.Sound) : d'.Sound := by
  unfold Draft.take at h
  split at h
  · split at h
    · cases h
    · cases h
      exact hd
  · next raw =>
    split at h
    · next binding hbinding =>
      cases h
      exact List.forall_mem_append.mpr ⟨hd, List.forall_mem_singleton.mpr ⟨raw, hbinding⟩⟩
    · cases h
  · split at h
    · cases h
    · cases h
      exact hd
  · split at h
    · cases h
    · split at h
      · cases h
        exact hd
      · cases h

theorem Sound.takeAll {found : List (Except Ending Item)} (h : d.takeAll found = .ok d')
    (hd : d.Sound) : d'.Sound := by
  rw [Draft.takeAll] at h
  induction found generalizing d with
  | nil =>
    cases h
    exact hd
  | cons item found ih =>
    rw [List.foldlM_cons] at h
    obtain ⟨next, hnext, hrest⟩ := bind_eq_ok.mp h
    obtain ⟨item, rfl, htake⟩ := bind_eq_ok.mp hnext
    exact ih hrest (hd.take htake)

theorem finish_bindings {a : Arguments} (h : d.finish = .ok a) : a.bindings = d.bindings := by
  unfold finish at h
  split at h
  · cases h
  · cases h
    rfl

end Draft

section
variable {arguments : List String} {a : Arguments}

theorem readArguments_eq_ok_iff : readArguments arguments = .ok a ↔
    ∃ d, Draft.empty.takeAll (items arguments) = .ok d ∧ d.finish = .ok a := by
  rw [readArguments, mapError_eq_ok, bind_eq_bind, bind_eq_ok]

/-- An item that binds a name puts its binding before all others. -/
theorem readArguments_of_items {raw : String} {binding : String × Float}
    (hraw : readBinding raw = .ok binding) {rest : List String}
    (hitems : items arguments = .ok (.option .binding raw) :: items rest)
    (hrest : readArguments rest = .ok a) :
    readArguments arguments = .ok { a with bindings := binding :: a.bindings } := by
  obtain ⟨d, hd, ha⟩ := readArguments_eq_ok_iff.mp hrest
  have htake : Draft.empty.take (.option .binding raw) = .ok (Draft.empty.behind [binding]) := by
    simp [Draft.take, hraw, Draft.behind, Draft.empty]
  have htakeAll : Draft.empty.takeAll (items arguments) = .ok (d.behind [binding]) := by
    have hbehind := Draft.takeAll_behind [binding] .empty (items rest)
    rw [hd] at hbehind
    rw [hitems, Draft.takeAll, List.foldlM_cons]
    exact bind_eq_ok.mpr ⟨_, htake, hbehind⟩
  refine readArguments_eq_ok_iff.mpr ⟨_, htakeAll, ?_⟩
  rw [Draft.finish_behind, ha]
  rfl

end

theorem readArguments_reads : Reads readArguments where
  joined hraw hrest := readArguments_of_items hraw (items_joined _ _) hrest
  apart hhead hraw hrest := readArguments_of_items hraw (items_apart _ hhead) hrest
  binding_read h := by
    obtain ⟨d, hd, ha⟩ := readArguments_eq_ok_iff.mp h
    rw [Draft.finish_bindings ha]
    exact Draft.Sound.takeAll hd nofun

end Fluxion.CommandLine
