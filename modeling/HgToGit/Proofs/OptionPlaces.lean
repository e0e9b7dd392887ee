/-
# HgToGit.Proofs.OptionPlaces -- options may stand anywhere

The options that all commands share may stand in front of the command, behind it, or on both sides.
Reading one is a step on its level: whatever was pending is settled first, and what the level
settles to afterwards has one option more (`CommandLine.exists_read_words`). What is read of a level
is therefore known by what it settles to, and the rest of the arguments is read from there.

The line of `translate` begins at the first word that does not begin with a hyphen. At this word the
reading of options is over, so whatever comes behind it is taken as it stands.
-/
import HgToGit.CommandLine.Parser

namespace HgToGit

/-! ## Options together -/

namespace GlobalOptions

theorem none_merge (o : GlobalOptions) : none.merge o = o := by
  obtain ⟨debug, quiet, json, config⟩ := o
  cases config <;> rfl

theorem merge_none (o : GlobalOptions) : o.merge none = o := by
  simp [merge, none]

theorem merge_assoc (a b c : GlobalOptions) : (a.merge b).merge c = a.merge (b.merge c) := by
  cases hc : c.config <;> simp [merge, hc, Bool.or_assoc]

end GlobalOptions

namespace CommandLine

/-- A path that may follow the option for the settings: it is not empty and does not look like an
option. -/
structure ConfigPath where
  /-- The path. -/
  text : String
  /-- It is not empty. -/
  ne_empty : text ≠ ""
  /-- It does not begin with a hyphen. -/
  no_hyphen : text.toList.head? ≠ some '-'
  deriving DecidableEq

/-- A shared option as it is written. -/
inductive GlobalFlag where
  /-- `--debug`. -/
  | debug
  /-- `--quiet`, or `-q` if short. -/
  | quiet (short : Bool)
  /-- `--json`. -/
  | json
  /-- `--config` with a path as the next word, or behind an equals sign if attached. -/
  | config (path : ConfigPath) (attached : Bool)
  deriving DecidableEq

namespace GlobalFlag

/-- The words of an option. -/
def words : GlobalFlag → List String
  | debug => ["--debug"]
  | quiet short => [if short then "-q" else "--quiet"]
  | json => ["--json"]
  | config path attached =>
    if attached then ["--config=" ++ path.text] else ["--config", path.text]

/-- Which option it is, however it is written. -/
def flag : GlobalFlag → Flag
  | debug => .switch .debug
  | quiet _ => .switch .quiet
  | json => .switch .json
  | config _ _ => .config

/-- The option alone. -/
def options : GlobalFlag → GlobalOptions
  | debug => { GlobalOptions.none with debug := true }
  | quiet _ => { GlobalOptions.none with quiet := true }
  | json => { GlobalOptions.none with json := true }
  | config path _ => { GlobalOptions.none with config := some path.text }

end GlobalFlag

/-- The words of options, in order. -/
def wordsOf (given : List GlobalFlag) : List String := given.flatMap GlobalFlag.words

/-- Options together; of two paths the later one would count. -/
def optionsOf (given : List GlobalFlag) : GlobalOptions :=
  given.foldr (fun f o => f.options.merge o) .none

/-- The options are those that are given, and no others. -/
structure AreGiven (given : List GlobalFlag) (o : GlobalOptions) : Prop where
  debug : o.debug = true ↔ .debug ∈ given
  quiet : o.quiet = true ↔ ∃ short, .quiet short ∈ given
  json : o.json = true ↔ .json ∈ given
  config : ∀ text, o.config = some text ↔
    ∃ path attached, path.text = text ∧ .config path attached ∈ given

theorem AreGiven.unique {given : List GlobalFlag} {o o' : GlobalOptions} (h : AreGiven given o)
    (h' : AreGiven given o') : o = o' := by
  obtain ⟨debug, quiet, json, config⟩ := o
  obtain ⟨debug', quiet', json', config'⟩ := o'
  obtain rfl : debug = debug' := Bool.eq_iff_iff.mpr (h.debug.trans h'.debug.symm)
  obtain rfl : quiet = quiet' := Bool.eq_iff_iff.mpr (h.quiet.trans h'.quiet.symm)
  obtain rfl : json = json' := Bool.eq_iff_iff.mpr (h.json.trans h'.json.symm)
  obtain rfl : config = config' :=
    Option.ext fun text => (h.config text).trans (h'.config text).symm
  rfl

/-- The order of options does not count. -/
theorem AreGiven.perm {given given' : List GlobalFlag} {o : GlobalOptions} (h : AreGiven given o)
    (hperm : given.Perm given') : AreGiven given' o where
  debug := h.debug.trans hperm.mem_iff
  quiet := h.quiet.trans (exists_congr fun _ => hperm.mem_iff)
  json := h.json.trans hperm.mem_iff
  config text := (h.config text).trans
    (exists_congr fun _ => exists_congr fun _ => and_congr_right fun _ => hperm.mem_iff)

/-- Options in two parts, of which one at most has a path. -/
theorem AreGiven.append {given given' : List GlobalFlag} {o o' : GlobalOptions}
    (h : AreGiven given o) (h' : AreGiven given' o') (hone : o.config = none ∨ o'.config = none) :
    AreGiven (given ++ given') (o.merge o') where
  debug := by simp [GlobalOptions.merge, h.debug, h'.debug]
  quiet := by simp [GlobalOptions.merge, h.quiet, h'.quiet, exists_or]
  json := by simp [GlobalOptions.merge, h.json, h'.json]
  config text := by
    have hor : (o.merge o').config = some text ↔ o.config = some text ∨ o'.config = some text := by
      rcases hone with hnone | hnone <;> simp [GlobalOptions.merge, hnone]
    rw [hor, h.config, h'.config]
    simp only [List.mem_append, and_or_left, exists_or]

theorem areGiven_singleton (f : GlobalFlag) : AreGiven [f] f.options := by
  cases f <;> constructor <;> simp [GlobalFlag.options, GlobalOptions.none]

theorem AreGiven.config_eq_none {given : List GlobalFlag} {o : GlobalOptions}
    (h : AreGiven given o) (hnone : Flag.config ∉ given.map GlobalFlag.flag) : o.config = none := by
  rw [Option.eq_none_iff_forall_ne_some]
  intro text htext
  obtain ⟨path, attached, -, hmem⟩ := (h.config text).mp htext
  exact hnone (List.mem_map.mpr ⟨_, hmem, rfl⟩)

theorem areGiven_optionsOf {given : List GlobalFlag} (h : (given.map GlobalFlag.flag).Nodup) :
    AreGiven given (optionsOf given) := by
  induction given with
  | nil => constructor <;> simp [optionsOf, GlobalOptions.none]
  | cons f given ih =>
      obtain ⟨hf, hgiven⟩ := List.nodup_cons.mp h
      refine (areGiven_singleton f).append (ih hgiven) ?_
      cases f with
      | config => exact .inr ((ih hgiven).config_eq_none hf)
      | debug | quiet | json => exact .inl rfl

theorem optionsOf_append (given given' : List GlobalFlag) :
    optionsOf (given ++ given') = (optionsOf given).merge (optionsOf given') := by
  induction given with
  | nil => exact (GlobalOptions.none_merge _).symm
  | cons f given ih =>
      show f.options.merge (optionsOf (given ++ given')) =
        (f.options.merge (optionsOf given)).merge (optionsOf given')
      rw [ih, GlobalOptions.merge_assoc]

/-! ## Reading one option -/

theorem shape_of_word {arg : String} (h : arg.toList.head? ≠ some '-') :
    Shape.of arg = .word := by
  unfold Shape.of
  split
  next harg => simp [harg] at h
  next harg => simp [harg] at h
  next harg => simp [harg] at h
  next => rfl

theorem ne_terminator_of_word {arg : String} (h : Shape.of arg = .word) :
    Shape.of arg ≠ .terminator := by
  rw [h]
  exact nofun

theorem shape_of_attached (text : String) :
    Shape.of ("--config=" ++ text) = .long "config" (some text) := by
  have hchars : ("--config=" ++ text).toList =
      '-' :: '-' :: 'c' :: 'o' :: 'n' :: 'f' :: 'i' :: 'g' :: '=' :: text.toList := by
    rw [String.toList_append]
    rfl
  unfold Shape.of
  rw [hchars]
  simp [List.takeWhile, List.dropWhile]

namespace Level

variable {l l' : Level} {o : GlobalOptions} {shell : Option Shell} {arg : String}

theorem read_option {scope : Scope} (hshape : Shape.of arg ≠ .terminator)
    (h : l.option? scope arg = .ok (some l')) (rest : List String) :
    l.read scope (arg :: rest) = l'.read scope rest := by
  rw [read.eq_def]
  simp only [if_neg hshape, h]
  rfl

theorem option?_word {scope : Scope} (hshape : Shape.of arg = .word) :
    l.option? scope arg = .ok none := by
  simp only [option?, hshape]

/-- The word behind the option for the settings is their path. -/
theorem read_path {scope : Scope} (hshape : Shape.of arg = .word)
    (hpending : l.pending = .configExpected) (rest : List String) :
    l.read scope (arg :: rest) = Level.read scope { l with pending := .config arg } rest := by
  rw [read.eq_def]
  simp only [if_neg (ne_terminator_of_word hshape), option?_word hshape, bind, Except.bind,
    if_pos hpending]

theorem option?_long {scope : Scope} {f : Flag} (name : String)
    (hshape : Shape.of arg = .long name none) (hflag : Flag.ofLong? scope name = some f)
    (h : l.flag f = .ok l') : l.option? scope arg = .ok (some l') := by
  simp only [option?, hshape, hflag, h]
  rfl

theorem option?_quiet_letter {scope : Scope} (h : l.flag (.switch .quiet) = .ok l') :
    l.option? scope "-q" = .ok (some l') := by
  have hshape : Shape.of "-q" = .letters ['q'] := by decide
  have hletter : Flag.ofLetter? scope 'q' = some (.switch .quiet) := rfl
  simp [option?, hshape, letter, hletter, h, bind, Except.bind, Except.map, pure, Except.pure]

theorem flag_switch {s : Switch} (h : l.settle = .ok l') (hoff : l'.isOn s = false) :
    l.flag (.switch s) = .ok (l'.turnOn s) := by
  rw [flag, h]
  show (if l'.isOn s = true then _ else _) = _
  rw [hoff]
  rfl

theorem flag_config (h : l.settle = .ok l') :
    l.flag .config = .ok { l' with pending := .configExpected } := by
  rw [flag, h]
  rfl

theorem setConfig_of_none {path : String} (hnone : l.options.config = none) (hpath : path ≠ "") :
    l.setConfig path = .ok { l with options := { l.options with config := some path } } := by
  rw [setConfig, hnone, if_neg hpath]
  rfl

/-- A level that settles does not wait for a path. -/
theorem pending_ne_of_settle (h : l.settle = .ok l') : l.pending ≠ .configExpected := by
  intro hpending
  rw [settle, hpending] at h
  cases h

end Level

/-- An option is not among those that have been given. -/
def Lacks (o : GlobalOptions) : GlobalFlag → Prop
  | .debug => o.debug = false
  | .quiet _ => o.quiet = false
  | .json => o.json = false
  | .config _ _ => o.config = none

theorem lacks_none (f : GlobalFlag) : Lacks .none f := by
  cases f <;> rfl

/-- Another option does not put it among them. -/
theorem Lacks.merge {o : GlobalOptions} {f g : GlobalFlag} (h : Lacks o g)
    (hne : f.flag ≠ g.flag) : Lacks (o.merge f.options) g := by
  cases f <;> cases g <;>
    simp_all [Lacks, GlobalFlag.flag, GlobalFlag.options, GlobalOptions.merge, GlobalOptions.none]

section Reading

variable {l : Level} {o : GlobalOptions} {shell : Option Shell} {f : GlobalFlag}
  (h : l.settle = .ok ⟨o, shell, .nothing⟩) (hf : Lacks o f)

include h hf

/-- An option without a value, whose one word is taken for it. -/
theorem exists_read_switch {s : Switch} {arg : String} (hflag : f.flag = .switch s)
    (hwords : f.words = [arg]) (hshape : Shape.of arg ≠ .terminator)
    (hoption : ∀ scope l', l.flag (.switch s) = .ok l' → l.option? scope arg = .ok (some l')) :
    ∃ l' : Level, l'.settle = .ok ⟨o.merge f.options, shell, .nothing⟩ ∧
      ∀ scope rest, l.read scope (f.words ++ rest) = l'.read scope rest := by
  have hoff : Level.isOn ⟨o, shell, .nothing⟩ s = false := by
    cases f <;> cases hflag <;> exact hf
  have hon : Level.turnOn ⟨o, shell, .nothing⟩ s = ⟨o.merge f.options, shell, .nothing⟩ := by
    cases f <;> cases hflag <;>
      simp [Level.turnOn, GlobalFlag.options, GlobalOptions.merge, GlobalOptions.none]
  refine ⟨⟨o.merge f.options, shell, .nothing⟩, rfl, fun scope rest => ?_⟩
  rw [hwords, List.singleton_append, ← hon]
  exact Level.read_option hshape (hoption scope _ (Level.flag_switch h hoff)) rest

/-- An option is read in one step, whatever is pending: the level settles to one option more. -/
theorem exists_read_words :
    ∃ l' : Level, l'.settle = .ok ⟨o.merge f.options, shell, .nothing⟩ ∧
      ∀ scope rest, l.read scope (f.words ++ rest) = l'.read scope rest := by
  cases f with
  | debug =>
      exact exists_read_switch h hf rfl rfl (by decide) fun _ _ =>
        Level.option?_long "debug" (by decide) rfl
  | quiet short =>
      cases short with
      | true =>
          exact exists_read_switch h hf rfl rfl (by decide) fun _ _ => Level.option?_quiet_letter
      | false =>
          exact exists_read_switch h hf rfl rfl (by decide) fun _ _ =>
            Level.option?_long "quiet" (by decide) rfl
  | json =>
      exact exists_read_switch h hf rfl rfl (by decide) fun _ _ =>
        Level.option?_long "json" (by decide) rfl
  | config path attached =>
      have hset : Level.setConfig ⟨o, shell, .nothing⟩ path.text =
          .ok ⟨o.merge (GlobalFlag.config path attached).options, shell, .nothing⟩ := by
        rw [Level.setConfig_of_none (l := ⟨o, shell, .nothing⟩) hf path.ne_empty]
        simp [GlobalFlag.options, GlobalOptions.merge, GlobalOptions.none]
      cases attached with
      | true =>
          refine ⟨⟨o.merge (GlobalFlag.config path true).options, shell, .nothing⟩, rfl,
            fun scope rest => Level.read_option ?_ ?_ rest⟩
          · rw [shape_of_attached]
            exact nofun
          · simp only [Level.option?, shape_of_attached]
            show Except.map some (l.settle >>= fun settled => settled.setConfig path.text) = _
            rw [h]
            exact congrArg (Except.map some) hset
      | false =>
          -- The path is pending, and it is settled together with what comes next.
          refine ⟨⟨o, shell, .config path.text⟩, hset, fun scope rest => ?_⟩
          have hexpected : l.option? scope "--config" =
              .ok (some ⟨o, shell, .configExpected⟩) :=
            Level.option?_long "config" (by decide) rfl (Level.flag_config h)
          show l.read scope ("--config" :: path.text :: rest) = _
          rw [Level.read_option (by decide) hexpected,
            Level.read_path (shape_of_word path.no_hyphen) rfl]

end Reading

/-! ## Reading all options of one side -/

/-- Options that are given once each are read one after the other: the level settles to all of
them. -/
theorem exists_read_wordsOf {given : List GlobalFlag} {l : Level} {o : GlobalOptions}
    {shell : Option Shell} (h : l.settle = .ok ⟨o, shell, .nothing⟩)
    (hlacks : ∀ f ∈ given, Lacks o f) (honce : (given.map GlobalFlag.flag).Nodup) :
    ∃ l' : Level, l'.settle = .ok ⟨o.merge (optionsOf given), shell, .nothing⟩ ∧
      ∀ scope rest, l.read scope (wordsOf given ++ rest) = l'.read scope rest := by
  -- What has been given so far is in the statement, and the options to come lack in it.
  induction given generalizing l o with
  | nil =>
      refine ⟨l, ?_, fun _ _ => rfl⟩
      rw [h, optionsOf, List.foldr_nil, GlobalOptions.merge_none]
  | cons f given ih =>
      obtain ⟨hf, hgiven⟩ := List.nodup_cons.mp honce
      obtain ⟨l₁, hl₁, hread₁⟩ := exists_read_words h (hlacks f List.mem_cons_self)
      have hlacks₁ : ∀ g ∈ given, Lacks (o.merge f.options) g := fun g hg =>
        (hlacks g (List.mem_cons_of_mem f hg)).merge fun heq =>
          hf (heq ▸ List.mem_map_of_mem hg)
      obtain ⟨l₂, hl₂, hread₂⟩ := ih hl₁ hlacks₁ hgiven
      refine ⟨l₂, ?_, fun scope rest => ?_⟩
      · rw [hl₂, GlobalOptions.merge_assoc]
        rfl
      · rw [wordsOf, List.flatMap_cons, List.append_assoc, hread₁]
        exact hread₂ scope rest

/-- The options on one side of the command. -/
theorem exists_read_side {given : List GlobalFlag} {shell : Option Shell} {l : Level}
    (h : l.settle = .ok ⟨.none, shell, .nothing⟩) (honce : (given.map GlobalFlag.flag).Nodup) :
    ∃ l' : Level, l'.settle = .ok ⟨optionsOf given, shell, .nothing⟩ ∧
      ∀ scope rest, l.read scope (wordsOf given ++ rest) = l'.read scope rest := by
  obtain ⟨l', hl', hread⟩ := exists_read_wordsOf h (fun f _ => lacks_none f) honce
  rw [GlobalOptions.none_merge] at hl'
  exact ⟨l', hl', hread⟩

/-! ## The command between the options -/

/-- How a command is written: the words that name it, behind which options may stand, and the words
behind these options. -/
inductive IsWritten : List String → List String → Command → Prop where
  | list : IsWritten ["list"] [] .list
  | repl : IsWritten ["repl"] [] .repl
  | completion (shell : Shell) : IsWritten ["completion", shell.text] [] (.completion shell)
  | translate {word : String} (hword : word.toList.head? ≠ some '-') (words : List String) :
      IsWritten ["translate"] (word :: words) (.translate (word :: words))

theorem shape_of_command {arg : String} {name : CommandName}
    (h : CommandName.ofText? arg = some name) : Shape.of arg = .word ∧ arg ≠ helpWord := by
  unfold CommandName.ofText? at h
  split at h
  next harg => subst harg; decide
  split at h
  next harg => subst harg; decide
  split at h
  next harg => subst harg; decide
  split at h
  next harg => subst harg; decide
  next => cases h

namespace Level

variable {l l' : Level} {arg : String}

/-- The name of a command ends the level in front of it, with what is still pending there. -/
theorem read_command {name : CommandName} (hname : CommandName.ofText? arg = some name)
    (h : l.settle = .ok l') (rest : List String) :
    l.read .top (arg :: rest) = .ok (l, .command name rest) := by
  obtain ⟨hshape, hhelp⟩ := shape_of_command hname
  rw [read.eq_2]
  simp only [if_neg (ne_terminator_of_word hshape), option?_word hshape, bind, Except.bind,
    if_neg (pending_ne_of_settle h), if_neg hhelp, hname]

/-- The first word that does not look like an option begins the line, and the line is everything
from there on. -/
theorem read_line (hshape : Shape.of arg = .word) (h : l.settle = .ok l') (rest : List String) :
    l.read (.after .translate) (arg :: rest) = .ok (l', .words (arg :: rest)) := by
  rw [read.eq_3]
  simp only [if_neg (ne_terminator_of_word hshape), option?_word hshape, bind, Except.bind,
    if_neg (pending_ne_of_settle h), h]

/-- The name of a shell is pending until the next thing is read. -/
theorem read_shell (s : Shell) (rest : List String) :
    Level.empty.read (.after .completion) (s.text :: rest) =
      Level.read (.after .completion) { Level.empty with pending := .shell s.text } rest := by
  have hshape : Shape.of s.text = .word := by cases s <;> decide
  rw [read.eq_4]
  simp only [if_neg (ne_terminator_of_word hshape), option?_word hshape, bind, Except.bind]
  rfl

end Level

/-- Behind the command, its options and its own words are told apart. -/
theorem exists_readCommand {after : List GlobalFlag} {head tail : List String} {command : Command}
    (h : IsWritten head tail command) (honce : (after.map GlobalFlag.flag).Nodup) :
    ∃ arg words name, head = arg :: words ∧ CommandName.ofText? arg = some name ∧
      readCommand name (words ++ (wordsOf after ++ tail)) = .ok (optionsOf after, command) := by
  cases h with
  | list | repl =>
      obtain ⟨l, hl, hread⟩ := exists_read_side (l := .empty) rfl honce
      refine ⟨_, [], _, rfl, rfl, ?_⟩
      rw [readCommand, List.nil_append, hread, Level.read]
      simp only [bind, Except.bind, hl]
  | completion shell =>
      have hshell : Level.settle { Level.empty with pending := .shell shell.text } =
          .ok ⟨.none, some shell, .nothing⟩ := by
        cases shell <;> rfl
      obtain ⟨l, hl, hread⟩ := exists_read_side hshell honce
      refine ⟨"completion", [shell.text], .completion, rfl, rfl, ?_⟩
      rw [readCommand, List.singleton_append, Level.read_shell, hread, Level.read]
      simp only [bind, Except.bind, hl]
  | @translate word hword words =>
      obtain ⟨l, hl, hread⟩ := exists_read_side (l := .empty) rfl honce
      refine ⟨"translate", [], .translate, rfl, rfl, ?_⟩
      rw [readCommand, List.nil_append, hread, Level.read_line (shape_of_word hword) hl]
      rfl

theorem parse_of_isWritten {head tail : List String} {command : Command}
    (before after : List GlobalFlag) (h : IsWritten head tail command)
    (hbefore : (before.map GlobalFlag.flag).Nodup) (hafter : (after.map GlobalFlag.flag).Nodup) :
    parse (wordsOf before ++ head ++ wordsOf after ++ tail) =
      .ok ⟨(optionsOf before).merge (optionsOf after), command⟩ := by
  obtain ⟨arg, words, name, rfl, hname, hcommand⟩ := exists_readCommand h hafter
  obtain ⟨l, hl, hread⟩ := exists_read_side (l := .empty) rfl hbefore
  have hargs : wordsOf before ++ arg :: words ++ wordsOf after ++ tail =
      wordsOf before ++ arg :: (words ++ (wordsOf after ++ tail)) := by
    simp only [List.append_assoc, List.cons_append]
  rw [parse, hargs, hread, Level.read_command hname hl]
  simp only [bind, Except.bind, hcommand, hl]

/-- **Shared options may stand anywhere.** Take options that are given once each, in any order, some
of them in front of the command and the others behind it. What is parsed has just these options and
the command, as if all of them stood in front. The line of `translate` is the words from the first
one on that does not begin with a hyphen, exactly as they stand: words behind it that are spelled
like options, like a double hyphen or like commands belong to the line. -/
theorem parse_options_anywhere {given before after : List GlobalFlag}
    (hsplit : given.Perm (before ++ after)) (honce : (given.map GlobalFlag.flag).Nodup) :
    ∃ options, AreGiven given options ∧
      ∀ head tail command, IsWritten head tail command →
        parse (wordsOf before ++ head ++ wordsOf after ++ tail) = .ok ⟨options, command⟩ ∧
        parse (wordsOf given ++ head ++ tail) = .ok ⟨options, command⟩ := by
  have hnodup : ((before ++ after).map GlobalFlag.flag).Nodup :=
    (hsplit.map GlobalFlag.flag).nodup_iff.mp honce
  have hboth : (before.map GlobalFlag.flag).Nodup ∧ (after.map GlobalFlag.flag).Nodup := by
    rw [List.map_append, List.nodup_append] at hnodup
    exact ⟨hnodup.1, hnodup.2.1⟩
  -- Either way the options are those that are given, and there is one such value only.
  have hoptions : optionsOf (before ++ after) = optionsOf given :=
    (areGiven_optionsOf hnodup).unique ((areGiven_optionsOf honce).perm hsplit)
  refine ⟨optionsOf given, areGiven_optionsOf honce, fun head tail command h => ⟨?_, ?_⟩⟩
  · rw [parse_of_isWritten before after h hboth.1 hboth.2, ← optionsOf_append, hoptions]
  · have hfront := parse_of_isWritten given [] h honce List.nodup_nil
    rw [← optionsOf_append, List.append_nil] at hfront
    simpa only [wordsOf, List.flatMap_nil, List.append_nil] using hfront

/-- The settings in front of `translate`, two options behind it, and a line with words that are
spelled like options. -/
theorem parse_options_anywhere_both_sides :
    let path : ConfigPath := ⟨"c.toml", by decide, by decide⟩
    let given : List GlobalFlag := [.json, .config path false, .quiet true]
    let before : List GlobalFlag := [.config path false]
    let after : List GlobalFlag := [.quiet true, .json]
    given.Perm (before ++ after) ∧ (given.map GlobalFlag.flag).Nodup ∧
      parse ["--config", "c.toml", "translate", "-q", "--json", "hg", "--json", "--", "list"] =
        .ok ⟨⟨false, true, true, some "c.toml"⟩, .translate ["hg", "--json", "--", "list"]⟩ := by
  intro path given before after
  have hsplit : given.Perm (before ++ after) := by decide
  have honce : (given.map GlobalFlag.flag).Nodup := by decide
  obtain ⟨options, hgiven, hparse⟩ := parse_options_anywhere hsplit honce
  obtain rfl : options = ⟨false, true, true, some "c.toml"⟩ :=
    hgiven.unique (areGiven_optionsOf honce)
  exact ⟨hsplit, honce, (hparse _ _ _ (.translate (by decide) ["--json", "--", "list"])).1⟩

end CommandLine

end HgToGit
