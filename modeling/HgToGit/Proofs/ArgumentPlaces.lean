/-
# HgToGit.Proofs.ArgumentPlaces -- each token of a line by its place

Where a token belongs is decided by the last known flag in front of its place (`lastFlag?`), and by
nothing else that is on the line. `parse_places` says so for the whole line: the general arguments are
the longest front without a known flag, a flag is filed if it is known and was given, and it has the
tokens of its places (`tokensOf`), in the order of the line.

`Arguments.absorbed` reads the line once from the front, and remembers only whether the last flag was
the one in question. The induction is on what is still to be read, with what has been read as a front
of any length (`absorbed_eq_of_front`).
-/
import HgToGit.Proofs.ArgumentGroups

namespace HgToGit.Arguments

/-! ## Places -/

/-- The last known flag of a front. -/
def lastFlag? (known front : List String) : Option String := front.reverse.find? (· ∈ known)

/-- The tokens, no flags themselves, that have this flag as the last known one in front of them. -/
def tokensOf (known tokens : List String) (flag : String) : List String :=
  (tokens.zipIdx.filter fun (token, place) =>
    token ∉ known ∧ lastFlag? known (tokens.take place) = some flag).map Prod.fst

variable {known : List String}

theorem lastFlag?_concat_of_mem {token : String} (h : token ∈ known) (front : List String) :
    lastFlag? known (front ++ [token]) = some token := by
  simp [lastFlag?, h]

theorem lastFlag?_concat_of_notMem {token : String} (h : token ∉ known) (front : List String) :
    lastFlag? known (front ++ [token]) = lastFlag? known front := by
  simp [lastFlag?, h]

/-- What a flag takes behind a front are the tokens of its places there. -/
theorem absorbed_eq_of_front (flag : String) (front rest : List String) :
    absorbed known flag (lastFlag? known front = some flag) rest =
      ((rest.zipIdx front.length).filter fun (token, place) =>
        token ∉ known ∧ lastFlag? known ((front ++ rest).take place) = some flag).map Prod.fst := by
  induction rest generalizing front with
  | nil => rfl
  | cons token rest ih =>
      have hmore := ih (front ++ [token])
      rw [List.append_assoc, List.singleton_append, List.length_append, List.length_singleton]
        at hmore
      have hplace : (front ++ token :: rest).take front.length = front := List.take_left
      rw [List.zipIdx_cons, absorbed]
      by_cases htoken : token ∈ known
      · rw [lastFlag?_concat_of_mem htoken] at hmore
        rw [if_pos htoken, List.filter_cons_of_neg (by simp [htoken]), ← hmore]
        simp
      · rw [lastFlag?_concat_of_notMem htoken] at hmore
        rw [if_neg htoken, hmore]
        by_cases htaking : lastFlag? known front = some flag
        · rw [List.filter_cons_of_pos (by simp [htoken, hplace, htaking])]
          simp [htaking]
        · rw [List.filter_cons_of_neg (by simp [hplace, htaking])]
          simp [htaking]

theorem absorbed_eq_tokensOf (tokens : List String) (flag : String) :
    absorbed known flag false tokens = tokensOf known tokens flag :=
  absorbed_eq_of_front flag [] tokens

/-- The tokens in front of the first known flag are the longest front without one. -/
theorem isPrefix_leading_iff {tokens front : List String} :
    front <+: leading known tokens ↔ front <+: tokens ∧ front.Disjoint known := by
  constructor
  · intro h
    refine ⟨h.trans (List.takeWhile_prefix _), ?_⟩
    intro token htoken
    simpa using List.mem_takeWhile_imp (h.subset htoken)
  · rintro ⟨⟨rest, rfl⟩, hdisjoint⟩
    have hfront : ∀ token ∈ front, decide (token ∉ known) = true := by
      intro token htoken
      simpa using hdisjoint htoken
    rw [leading, List.takeWhile_append_of_pos hfront]
    exact List.prefix_append _ _

/-! ## The whole line -/

/-- **Every token of a line is placed once, by the last known flag in front of it.** The general
arguments are the longest front of the line without a known flag. The flags that are filed are the
known ones that were given, and each has the tokens of its places, in the order of the line. So there
are as many arguments as the line has tokens that are no known flags. -/
theorem parse_places (known tokens : List String) :
    let a := parse known tokens
    (∀ front, front <+: a.general ↔ front <+: tokens ∧ front.Disjoint known) ∧
    (∀ flag, flag ∈ a.options.keys ↔ flag ∈ known ∧ flag ∈ tokens) ∧
    (∀ flag args, (flag, args) ∈ a.options.entries ↔
      (flag ∈ known ∧ flag ∈ tokens) ∧ args = tokensOf known tokens flag) ∧
    (tokens.filter (· ∉ known)).length =
      a.general.length + (TextMap.arguments a.options).length := by
  intro a
  have hget (flag : String) : a.options.get? flag =
      if flag ∈ known ∧ flag ∈ tokens then some (tokensOf known tokens flag) else none := by
    rw [get?_parse, absorbed_eq_tokensOf]
  refine ⟨?_, ?_, ?_, ?_⟩
  · intro front
    rw [general_parse]
    exact isPrefix_leading_iff
  · intro flag
    rw [TextMap.mem_keys_iff, hget]
    by_cases hgiven : flag ∈ known ∧ flag ∈ tokens <;> simp [hgiven]
  · intro flag args
    rw [← TextMap.get?_eq_some_iff, hget]
    by_cases hgiven : flag ∈ known ∧ flag ∈ tokens <;> simp [hgiven, eq_comm]
  · have hcount := (parse_perm known tokens).length_eq
    rw [← hcount, List.length_append, Nat.add_comm]

/-- A flag that is given again goes on where it stopped. -/
example : tokensOf ["-r", "-f"] ["a", "-r", "b", "-f", "-x", "-r", "c"] "-r" = ["b", "c"] := by
  decide

end HgToGit.Arguments
