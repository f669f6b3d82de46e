import Mathlib
import ScriptBlocks.Proofs.Functions
import ScriptBlocks.Proofs.Readers
import ScriptBlocks.Proofs.Tiling

/-!
# Names of functions

The name of a function is a name of the source and has no blank in it. So the texts that identify
procedures, which start with their names and a blank, tell the functions of a program apart.
-/
namespace ScriptBlocks

variable {source : String} {t : Token} {program : Program}

namespace Token

/-- Names consist of letters, digits and underscores. -/
theorem continuesName_of_ofSource {tokens : List Token} (h : ofSource source = .ok tokens)
    (ht : t ∈ tokens) (hkind : t.kind = .identifier) :
    ∀ c ∈ t.text.toList, continuesName c = true := by
  have htiled : Tiled [] source.toList tokens := scan_tiled rfl h
  obtain ⟨c, rest, r, hread, hr, htext, -⟩ := htiled.exists_read t ht (by simp [hkind])
  rw [hr] at hkind
  rw [htext, String.toList_ofList]
  obtain ⟨-, rfl⟩ | ⟨hc, rfl⟩ | ⟨-, hne⟩ := read_cases hread
  · cases hkind
  · refine List.forall_mem_cons.2 ⟨?_, fun d hd => List.mem_takeWhile_imp hd⟩
    simp only [startsName, continuesName, Text.isAlphanumeric, Bool.or_eq_true] at hc ⊢
    exact hc.imp_left .inl
  · exact absurd hkind hne

theorem of_lexeme_eq_name {text : String} (h : t.lexeme = .name text) :
    t.kind = .identifier ∧ t.text = text := by
  unfold lexeme Lexeme.name at h
  split at h <;> simp_all

end Token

/-- So do the names of a program. -/
theorem Program.continuesName_of_ofSource (h : Program.ofSource source = .ok program)
    {name : String} (hm : .name name ∈ program.lexemes) :
    ∀ c ∈ name.toList, Token.continuesName c = true := by
  rw [Program.ofSource] at h
  split at h
  next => cases h
  next tokens hscan =>
    split at h
    next => cases h
    next hparse =>
      cases h
      rw [← (Program.spells_of_ofTokens hparse).2.said_eq] at hm
      obtain ⟨t, ht, htext⟩ := List.mem_map.1 hm
      obtain ⟨hkind, rfl⟩ := Token.of_lexeme_eq_name htext
      exact Token.continuesName_of_ofSource hscan
        ((List.takeWhile_sublist _).subset (List.mem_of_mem_filter ht)) hkind

/-- The name of a function has no blank. -/
theorem Program.name_noBlank (h : Program.ofSource source = .ok program) {name : Named}
    {params : List Named} {body : List Statement} {span : Span}
    (hm : .function name params body span ∈ program.statements) : ' ' ∉ name.name.toList := by
  have hname : Lexeme.name name.name ∈ program.lexemes := by
    rw [Program.lexemes, Statement.lexemesAll_eq_flatMap]
    exact List.mem_flatMap.2 ⟨_, hm, by simp [Statement.lexemes]⟩
  intro hblank
  have hcontinues := Program.continuesName_of_ofSource h hname _ hblank
  revert hcontinues
  decide

theorem takeWhile_ne {stop : Char} {name rest : List Char} (hname : stop ∉ name)
    (hrest : ∀ c ∈ rest.head?, c = stop) : (name ++ rest).takeWhile (· ≠ stop) = name := by
  rw [List.takeWhile_append_of_pos fun c hc => ?_]
  · cases rest with
    | nil => simp
    | cons c rest =>
      obtain rfl := hrest c rfl
      simp
  · rw [decide_eq_true_eq]
    rintro rfl
    exact hname hc

/-- The texts of procedures tell apart functions whose names have no blanks. -/
theorem Procedure.Coded.name_eq {p q : Procedure} {f g : String} (hp : p.Coded f) (hq : q.Coded g)
    (hf : ' ' ∉ f.toList) (hg : ' ' ∉ g.toList)
    (heq : p.mutation.proccode = q.mutation.proccode) : f = g := by
  obtain ⟨code, rest, hcode, htext, hrest⟩ := hp
  obtain ⟨code', rest', hcode', htext', hrest'⟩ := hq
  obtain rfl : code = code' := by simpa [hcode, hcode'] using heq
  refine String.toList_injective ?_
  calc f.toList
      = (f.toList ++ rest).takeWhile (· ≠ ' ') := (takeWhile_ne hf hrest).symm
    _ = (g.toList ++ rest').takeWhile (· ≠ ' ') := by rw [← htext, htext']
    _ = g.toList := takeWhile_ne hg hrest'

end ScriptBlocks
