/-
# HgToGit.Proofs.DotRevision -- revisions at the dot and at the head

On a line the dot is the current revision, and a revision that is counted from it begins with it. In
the canonical dialect the head takes its place. `Revision.Resolves` is the rule by the form of an
argument: three forms are changed and all others are kept. `Revision.resolve` follows the rule
(`resolves_iff`), so the rule gives every argument one result.

A result avoids the dot, so to resolve twice is to resolve once. The dots of a line are resolved in
every flag and in the general arguments alike, and it does not matter whether arguments are moved
before or after.
-/
import HgToGit.Invocation
import HgToGit.Proofs.ArgumentGroups
import Mathlib.Data.List.Forall2

namespace HgToGit

namespace Revision

/-! ## Revisions that avoid the dot -/

/-- A revision is neither the dot nor written relative to it. -/
def AvoidsDot (arg : String) : Prop :=
  arg ≠ "." ∧ ¬ ".^".toList <+: arg.toList ∧ ¬ ".~".toList <+: arg.toList

theorem avoidsDot_of_afterDot? {arg : String} (h : afterDot? arg = none) : AvoidsDot arg := by
  have hmark : ∀ c t, (c = '^' ∨ c = '~') → arg.toList = '.' :: c :: t → False := by
    intro c t hc harg
    rw [afterDot?, harg] at h
    rcases hc with rfl | rfl <;> simp at h
  refine ⟨?_, ?_, ?_⟩
  · rintro rfl
    exact absurd h (by decide)
  · rintro ⟨t, ht⟩
    exact hmark '^' t (Or.inl rfl) ht.symm
  · rintro ⟨t, ht⟩
    exact hmark '~' t (Or.inr rfl) ht.symm

theorem avoidsDot_head_append (suffix : String) : AvoidsDot (head ++ suffix) := by
  have htext : (head ++ suffix).toList = 'H' :: 'E' :: 'A' :: 'D' :: suffix.toList := by
    rw [String.toList_append]
    rfl
  refine ⟨fun h => ?_, ?_, ?_⟩
  · rw [h] at htext
    exact absurd htext (by simp)
  · rw [htext]
    simp
  · rw [htext]
    simp

theorem avoidsDot_resolve (arg : String) : AvoidsDot (resolve arg) := by
  unfold resolve
  split
  · exact avoidsDot_head_append _
  · exact avoidsDot_of_afterDot? ‹_›

theorem avoidsDot_head : AvoidsDot head := by
  simpa using avoidsDot_head_append ""

/-- A revision is kept, or its dot is replaced. -/
theorem resolve_eq_self_or (arg : String) :
    resolve arg = arg ∨
      ∃ suffix, arg.toList = '.' :: suffix ∧ (resolve arg).toList = head.toList ++ suffix := by
  unfold resolve
  split
  · rename_i suffix hsuffix
    refine Or.inr ⟨suffix, ?_, by simp⟩
    unfold afterDot? at hsuffix
    split at hsuffix
    · rename_i suffix' harg
      rw [harg]
      split at hsuffix
      · cases hsuffix
        rfl
      · split at hsuffix
        · cases hsuffix
          rfl
        · cases hsuffix
    · cases hsuffix
  · exact Or.inl rfl

/-! ## The rule -/

/-- What becomes of an argument: the dot becomes the head, alone and in front of `^` or `~`, and all
else stays. -/
inductive Resolves : String → String → Prop where
  /-- The current revision. -/
  | dot : Resolves "." "HEAD"
  /-- A parent of the current revision. -/
  | parent (rest : String) : Resolves (".^" ++ rest) ("HEAD^" ++ rest)
  /-- An ancestor of the current revision. -/
  | ancestor (rest : String) : Resolves (".~" ++ rest) ("HEAD~" ++ rest)
  /-- Anything else. -/
  | kept {arg : String} : AvoidsDot arg → Resolves arg arg

theorem afterDot?_of_avoidsDot {arg : String} (h : AvoidsDot arg) : afterDot? arg = none := by
  obtain ⟨hdot, hparent, hancestor⟩ := h
  unfold afterDot?
  split
  · rename_i suffix harg
    cases suffix with
    | nil => exact absurd (String.toList_inj.mp harg) hdot
    | cons c suffix =>
        have hmark : ¬ (c = '^' ∨ c = '~') := by
          rintro (rfl | rfl)
          · exact hparent ⟨suffix, harg.symm⟩
          · exact hancestor ⟨suffix, harg.symm⟩
        simpa using hmark
  · rfl

theorem resolve_mark {mark : Char} (hmark : mark = '^' ∨ mark = '~') (rest : String) :
    resolve (String.ofList ['.', mark] ++ rest) = head ++ String.ofList [mark] ++ rest := by
  have hafter : afterDot? (String.ofList ['.', mark] ++ rest) = some (mark :: rest.toList) := by
    rcases hmark with rfl | rfl <;> simp [afterDot?]
  rw [resolve, hafter, ← String.toList_inj]
  simp

/-- An argument has one of the forms of the rule. -/
theorem exists_resolves (arg : String) : ∃ arg', Resolves arg arg' := by
  by_cases hdot : arg = "."
  · exact ⟨"HEAD", hdot ▸ .dot⟩
  by_cases hparent : ".^".toList <+: arg.toList
  · obtain ⟨rest, hrest⟩ := hparent
    obtain rfl : ".^" ++ String.ofList rest = arg := by
      rw [← String.toList_inj, ← hrest]
      simp
    exact ⟨_, .parent _⟩
  by_cases hancestor : ".~".toList <+: arg.toList
  · obtain ⟨rest, hrest⟩ := hancestor
    obtain rfl : ".~" ++ String.ofList rest = arg := by
      rw [← String.toList_inj, ← hrest]
      simp
    exact ⟨_, .ancestor _⟩
  exact ⟨arg, .kept ⟨hdot, hparent, hancestor⟩⟩

theorem resolve_eq_of_resolves {arg arg' : String} (h : Resolves arg arg') :
    resolve arg = arg' := by
  cases h with
  | dot => decide
  | parent rest => exact resolve_mark (Or.inl rfl) rest
  | ancestor rest => exact resolve_mark (Or.inr rfl) rest
  | kept hkept => rw [resolve, afterDot?_of_avoidsDot hkept]

/-- **Arguments are resolved by the rule.** -/
theorem resolves_iff {arg arg' : String} : Resolves arg arg' ↔ resolve arg = arg' := by
  constructor
  · exact resolve_eq_of_resolves
  · rintro rfl
    obtain ⟨arg', h⟩ := exists_resolves arg
    rw [resolve_eq_of_resolves h]
    exact h

theorem forall₂_resolves_iff {args args' : List String} :
    List.Forall₂ Resolves args args' ↔ args.map resolve = args' := by
  have hrule : Resolves = fun arg arg' => resolve arg = arg' :=
    funext fun arg => funext fun arg' => propext resolves_iff
  rw [hrule, ← List.forall₂_map_left_iff, List.forall₂_eq_eq_eq]

theorem resolve_resolve (arg : String) : resolve (resolve arg) = resolve arg :=
  resolve_eq_of_resolves (.kept (avoidsDot_resolve arg))

/-! ## Flags -/

section Flags

variable {known : List String} (hknown : ∀ flag ∈ known, flag.toList.head? = some '-')
include hknown

/-- Neither an argument at the dot nor one at the head is a flag. -/
theorem resolve_mem_iff (arg : String) : resolve arg ∈ known ↔ arg ∈ known := by
  rcases resolve_eq_self_or arg with hself | ⟨suffix, harg, hresolved⟩
  · rw [hself]
  · have hnot : ∀ {arg : String} {c : Char}, arg.toList.head? = some c → c ≠ '-' → arg ∉ known := by
      intro arg c hc hne hmem
      exact hne (Option.some.inj (hc.symm.trans (hknown arg hmem)))
    have hdot : arg ∉ known := hnot (c := '.') (by rw [harg]; rfl) (by decide)
    have hhead : resolve arg ∉ known := hnot (c := 'H') (by rw [hresolved]; rfl) (by decide)
    exact iff_of_false hhead hdot

theorem resolve_of_mem {flag : String} (hflag : flag ∈ known) : resolve flag = flag := by
  rcases resolve_eq_self_or flag with hself | ⟨suffix, hdot, -⟩
  · exact hself
  · have hdash := hknown flag hflag
    rw [hdot] at hdash
    exact absurd (Option.some.inj hdash) (by decide)

end Flags

end Revision

/-! ## Lines with their dots resolved -/

namespace Invocation

open Revision (resolve resolve_resolve)

variable (inv : Invocation)

theorem get?_resolveDots (flag : String) :
    inv.resolveDots.options.get? flag = (inv.options.get? flag).map (List.map resolve) :=
  TextMap.get?_mapValues _ _ _

theorem hasOption_resolveDots (flag : String) :
    inv.resolveDots.hasOption flag = inv.hasOption flag := by
  show (inv.resolveDots.options.get? flag).isSome = (inv.options.get? flag).isSome
  rw [get?_resolveDots, Option.isSome_map]

theorem optionArgs_resolveDots (flag : String) :
    inv.resolveDots.optionArgs flag = (inv.optionArgs flag).map resolve := by
  rw [optionArgs, get?_resolveDots, optionArgs]
  cases inv.options.get? flag <;> rfl

/-- The dots of a line are resolved before its arguments are sorted, or after. -/
theorem ofArguments_parse_resolve {known : List String}
    (hknown : ∀ flag ∈ known, flag.toList.head? = some '-') (command : String)
    (tokens : List String) :
    ofArguments command (.parse known (tokens.map resolve)) =
      (ofArguments command (.parse known tokens)).resolveDots := by
  rw [Arguments.parse_map (Revision.resolve_mem_iff hknown) fun _ => Revision.resolve_of_mem hknown]
  rfl

theorem resolveDots_resolveDots : inv.resolveDots.resolveDots = inv.resolveDots := by
  have hargs : ∀ args : List String, (args.map resolve).map resolve = args.map resolve := by
    intro args
    simp [resolve_resolve]
  have hoptions : inv.resolveDots.resolveDots.options = inv.resolveDots.options := by
    apply TextMap.ext_get?
    intro flag
    rw [get?_resolveDots, get?_resolveDots]
    cases inv.options.get? flag with
    | none => rfl
    | some args => exact congrArg some (hargs args)
  show Invocation.mk _ inv.resolveDots.resolveDots.options ((inv.general.map resolve).map resolve) _ = _
  rw [hoptions, hargs]
  rfl

/-- The arguments of a flag are resolved before they become the general ones, or after. -/
theorem resolveDots_setGeneral_dropOption (flag : String) (args : List String) :
    ((inv.resolveDots.dropOption flag).setGeneral (args.map resolve)).resolveDots =
      ((inv.dropOption flag).setGeneral args).resolveDots := by
  have hmoved : (inv.resolveDots.dropOption flag).setGeneral (args.map resolve) =
      ((inv.dropOption flag).setGeneral args).resolveDots := by
    show Invocation.mk _ ((inv.options.mapValues (List.map resolve)).erase flag) _ _ = _
    rw [TextMap.erase_mapValues]
    rfl
  rw [hmoved, resolveDots_resolveDots]

end Invocation

end HgToGit
