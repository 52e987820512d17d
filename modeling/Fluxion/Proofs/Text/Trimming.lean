import Fluxion.Text.Blank
import Fluxion.Proofs.Token.Spelling

/-! Trimming takes the blanks at both ends of a text, and nothing else. -/
namespace Fluxion

def Unpadded (cs : List Char) : Prop :=
  (∀ c ∈ cs.head?, isBlank c = false) ∧ ∀ c ∈ cs.getLast?, isBlank c = false

theorem unpadded_of_unblank {cs : List Char} (h : ∀ c ∈ cs, isBlank c = false) : Unpadded cs :=
  ⟨fun c hc => h c (List.mem_of_mem_head? hc), fun c hc => h c (List.mem_of_mem_getLast? hc)⟩

/-- A text comes back from among blanks. -/
theorem trimBlanks_pad {before cs after : List Char} (hbefore : before.all isBlank = true)
    (hafter : after.all isBlank = true) (h : Unpadded cs) :
    trimBlanks (before ++ cs ++ after) = cs := by
  obtain ⟨hhead, hlast⟩ := h
  unfold trimBlanks
  cases cs with
  | nil =>
    have hall : ∀ c ∈ before ++ [] ++ after, isBlank c = true := by
      simpa [List.mem_append, or_imp, forall_and] using And.intro hbefore hafter
    rw [List.dropWhile_eq_nil_iff.mpr hall]
    rfl
  | cons first rest =>
    have hfront : (before ++ first :: rest ++ after).dropWhile isBlank = first :: rest ++ after := by
      rw [List.append_assoc]
      exact dropWhile_append_of_stop hbefore (by simpa using hhead)
    have hback : (after.reverse ++ (first :: rest).reverse).dropWhile isBlank =
        (first :: rest).reverse := by
      refine dropWhile_append_of_stop (by simpa using hafter) ?_
      rwa [List.head?_reverse]
    rw [hfront, List.reverse_append, hback, List.reverse_reverse]

theorem trimBlanks_of_unpadded {cs : List Char} (h : Unpadded cs) : trimBlanks cs = cs := by
  have hpad := trimBlanks_pad (rfl : [].all isBlank = true) (rfl : [].all isBlank = true) h
  rwa [List.nil_append, List.append_nil] at hpad

/-- Every text is a trimmed one among blanks. -/
theorem exists_pad (cs : List Char) :
    ∃ before after, before.all isBlank = true ∧ after.all isBlank = true ∧
      Unpadded (trimBlanks cs) ∧ cs = before ++ trimBlanks cs ++ after := by
  obtain ⟨front, hfront⟩ : ∃ front, front = cs.dropWhile isBlank := ⟨_, rfl⟩
  have htrim : trimBlanks cs = (front.reverse.dropWhile isBlank).reverse := by
    rw [trimBlanks, hfront]
  have hsplit : front = trimBlanks cs ++ (front.reverse.takeWhile isBlank).reverse := by
    rw [htrim, ← List.reverse_append, List.takeWhile_append_dropWhile, List.reverse_reverse]
  refine ⟨cs.takeWhile isBlank, (front.reverse.takeWhile isBlank).reverse, List.all_takeWhile,
    by simp, ⟨?_, ?_⟩, ?_⟩
  · intro c hc
    apply head?_dropWhile
    rw [← hfront, hsplit, List.head?_append, hc]
    rfl
  · intro c hc
    rw [htrim, List.getLast?_reverse] at hc
    exact head?_dropWhile c hc
  · rw [List.append_assoc, ← hsplit, hfront, List.takeWhile_append_dropWhile]

end Fluxion
