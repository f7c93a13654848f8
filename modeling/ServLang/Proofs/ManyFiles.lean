/-
  ServLang.Proofs.ManyFiles — commands on many files, against the same command on each of
  them alone. A report says all there is to say about one file, and what is answered for a
  run of reports is put together from them: the lines one after the other, the totals, and
  a failure if one of them has failed. So a run that comes to its end treats its files
  independently.

  `check` comes to its end whatever is in the files, since bytes that are no text are a
  mistake like any other to it. `lint` reads a file as text before there is a report, and
  a file that is no text ends its run: what was said about the files before it stands, the
  files after it are not looked at, and there is no summary.

  Proved:
  - `reportEach_append`: files that can be read are reported on one after the other.
  - `Outcome.ofReports_independent`: what is answered for many reports and for each alone.
  - `checkFiles_independent`, `lintFiles_independent`, `lintFiles_stop`: the two commands
    on files that can be read.
  - `lint_until_undecodable`: the same of the program, given a command line of files.
-/

import ServLang.Command.Run

namespace ServLang.Command

/-! ## Reports -/

theorem unlines_flatMap {α : Type} (f : α → List String) (xs : List α) :
    unlines (xs.flatMap f) = String.join (xs.map fun x => unlines (f x)) := by
  induction xs with
  | nil => rfl
  | cons x xs ih =>
    rw [List.flatMap_cons, List.map_cons, String.join_cons, ← ih, unlines, List.map_append, String.join_append]
    rfl

def total (count : String → Nat) (files : List String) : Nat := files.foldr (fun f n => count f + n) 0

theorem total_eq_zero_iff {count : String → Nat} {files : List String} :
    total count files = 0 ↔ ∀ f ∈ files, count f = 0 := by
  induction files with
  | nil => simp [total]
  | cons f files ih =>
    have split : total count (f :: files) = count f + total count files := rfl
    rw [split, List.forall_mem_cons, ← ih]
    omega

/-- What a command answers for many files is what it answers for each of them alone: the
    same is printed, the run fails exactly if one of them does, and the summary has the
    sums of the totals. -/
structure Independent (command : List String → Outcome) (errors warnings : String → Nat) (files : List String) :
    Prop where
  stdout : (command files).stdout = String.join (files.map fun f => (command [f]).stdout)
  failed : (command files).exit = 1 ↔ ∃ f ∈ files, (command [f]).exit = 1
  succeeded : (command files).exit ≠ 1 → (command files).exit = 0
  alone : ∀ f ∈ files, (command [f]).stderr = unlines (summary (errors f) (warnings f))
  stderr : (command files).stderr = unlines (summary (total errors files) (total warnings files))

/-- Reports are independent of one another. -/
theorem Outcome.ofReports_independent (report : String → FileReport) (files : List String) :
    Independent (fun fs => .ofReports (fs.map report) none) (fun f => (report f).errors) (fun f => (report f).warnings)
      files := by
  have errors (fs : List String) :
      (fs.map report).foldr (fun r n => r.errors + n) 0 = total (fun f => (report f).errors) fs := List.foldr_map
  have warnings (fs : List String) :
      (fs.map report).foldr (fun r n => r.warnings + n) 0 = total (fun f => (report f).warnings) fs := List.foldr_map
  -- Whether a run fails is said once, for all files and for each alone.
  have failed (fs : List String) :
      (Outcome.ofReports (fs.map report) none).exit = 1 ↔ ∃ f ∈ fs, (report f).broken = true ∨ (report f).errors ≠ 0 := by
    have some_error : total (fun f => (report f).errors) fs ≠ 0 ↔ ∃ f ∈ fs, (report f).errors ≠ 0 := by
      rw [Ne, total_eq_zero_iff]
      simp
    simp only [Outcome.ofReports, errors]
    rw [ite_eq_left_iff]
    simp only [Bool.or_eq_true, bne_iff_ne, List.any_map, List.any_eq_true, Function.comp, some_error]
    constructor
    · intro h
      by_cases hone : (∃ f ∈ fs, (report f).broken = true) ∨ ∃ f ∈ fs, (report f).errors ≠ 0
      · rcases hone with ⟨f, hf, hbroken⟩ | ⟨f, hf, herror⟩
        · exact ⟨f, hf, Or.inl hbroken⟩
        · exact ⟨f, hf, Or.inr herror⟩
      · exact absurd (h hone) (by decide)
    · rintro ⟨f, hf, hone⟩ hnone
      exact absurd (hone.imp (fun hbroken => ⟨f, hf, hbroken⟩) fun herror => ⟨f, hf, herror⟩) hnone
  constructor
  · simp only [Outcome.ofReports, List.flatMap_map, unlines_flatMap, List.map_singleton, List.flatMap_singleton]
  · simp only [failed, List.mem_singleton, exists_eq_left]
  · intro h
    unfold Outcome.ofReports at h ⊢
    dsimp only at h ⊢
    split at h
    · exact absurd rfl h
    · rw [if_neg (by assumption)]
  · intro f _
    rfl
  · simp only [Outcome.ofReports, errors, warnings]

/-- Answers for the same files, one by one and together, are independent together. -/
theorem Independent.congr {command command' : List String → Outcome} {errors warnings : String → Nat} {files : List String}
    (h : Independent command errors warnings files) (hall : command' files = command files)
    (heach : ∀ f ∈ files, command' [f] = command [f]) : Independent command' errors warnings files := by
  constructor
  · rw [hall, h.stdout, List.map_congr_left fun f hf => congrArg Outcome.stdout (heach f hf)]
  · rw [hall, h.failed]
    exact exists_congr fun f => and_congr_right fun hf => by rw [heach f hf]
  · rw [hall]
    exact h.succeeded
  · intro f hf
    rw [heach f hf, h.alone f hf]
  · rw [hall, h.stderr]

/-! ## Files that can be read -/

section ReportEach

variable {α : Type} {read : Workspace → String → Except Failure α × Workspace} {report : String → α → FileReport}
  {w : Workspace} {content : String → α}

/-- Files that are read without a change to the workspace are reported on, and then the
    files after them as if they were alone. -/
theorem reportEach_append {before : List String} (h : ∀ f ∈ before, read w f = (.ok (content f), w)) (after : List String) :
    reportEach read report w (before ++ after) =
      ((before.map fun f => report f (content f)) ++ (reportEach read report w after).1,
        (reportEach read report w after).2) := by
  induction before with
  | nil => rfl
  | cons f before ih =>
    rw [List.cons_append, reportEach, h f List.mem_cons_self]
    dsimp only
    rw [ih fun g hg => h g (List.mem_cons_of_mem _ hg), List.map_cons, List.cons_append]

/-- With all files readable there is a report on each, and no failure. -/
theorem reportEach_eq {files : List String} (h : ∀ f ∈ files, read w f = (.ok (content f), w)) :
    reportEach read report w files = (files.map fun f => report f (content f), none) := by
  have all : reportEach read report w (files ++ []) = _ := reportEach_append h []
  rwa [List.append_nil, reportEach, List.append_nil] at all

/-- The first file that is not read ends the run. -/
theorem reportEach_stop {before : List String} {f : String} {failure : Failure}
    (h : ∀ g ∈ before, read w g = (.ok (content g), w)) (hf : (read w f).1 = .error failure) (after : List String) :
    reportEach read report w (before ++ f :: after) = (before.map fun g => report g (content g), some failure) := by
  have stop : reportEach read report w (f :: after) = ([], some failure) := by
    rw [reportEach]
    generalize read w f = r at hf ⊢
    obtain ⟨result, w'⟩ := r
    obtain rfl : result = .error failure := hf
    rfl
  rw [reportEach_append h, stop, List.append_nil]

/-- A command that reports on each of its files, all of which are read. -/
theorem ofReportEach_independent {files : List String} (h : ∀ f ∈ files, read w f = (.ok (content f), w)) :
    Independent (fun fs => .ofReports (reportEach read report w fs).1 (reportEach read report w fs).2)
      (fun f => (report f (content f)).errors) (fun f => (report f (content f)).warnings) files := by
  refine (Outcome.ofReports_independent (fun f => report f (content f)) files).congr ?_ fun f hf => ?_
  · rw [reportEach_eq h]
  · have one : ∀ g ∈ [f], read w g = (.ok (content g), w) := fun g hg => h g (List.mem_singleton.1 hg ▸ hf)
    rw [reportEach_eq one]

end ReportEach

/-- A path names a file with some bytes; it is not that of standard input. -/
structure Workspace.HasFile (w : Workspace) (path : String) (bytes : ByteArray) : Prop where
  notInput : path ≠ "-"
  file : w.file path = .ok (.bytes bytes)

namespace Workspace.HasFile

variable {w : Workspace} {path : String} {bytes : ByteArray}

theorem readSource (h : w.HasFile path bytes) : readSource w path = (.ok bytes, w) := by
  rw [Command.readSource, read, if_neg h.notInput, h.file]

theorem readText_ok {text : String} (h : w.HasFile path bytes) (ht : Source.decode bytes = .ok text) :
    readText w path = (.ok text, w) := by
  rw [readText, h.readSource]
  dsimp only
  rw [ht]

theorem readText_error {e : LexError} (h : w.HasFile path bytes) (he : Source.decode bytes = .error e) :
    readText w path = (.error ⟨path, [e.message]⟩, w) := by
  rw [readText, h.readSource]
  dsimp only
  rw [he]

end Workspace.HasFile

/-! ## Linting and checking -/

section Files

variable {w : Workspace} {bytes : String → ByteArray} {text : String → String} {files : List String}

/-- To `check`, any bytes are something to report on. -/
theorem checkFiles_independent (strict : Bool) (hfile : ∀ f ∈ files, w.HasFile f (bytes f)) :
    Independent (checkFiles strict w) (fun f => (checkFile strict f (bytes f)).errors)
      (fun f => (checkFile strict f (bytes f)).warnings) files :=
  ofReportEach_independent fun f hf => (hfile f hf).readSource

/-- `lint` has to have texts first. -/
theorem lintFiles_independent (hfile : ∀ f ∈ files, w.HasFile f (bytes f))
    (htext : ∀ f ∈ files, Source.decode (bytes f) = .ok (text f)) :
    Independent (lintFiles w) (fun f => (lintText f (text f)).errors) (fun f => (lintText f (text f)).warnings) files :=
  ofReportEach_independent fun f hf => (hfile f hf).readText_ok (htext f hf)

/-- The first file that is no text ends the run. -/
theorem lintFiles_stop {before after : List String} {f : String} {e : LexError}
    (hfile : ∀ g ∈ before ++ f :: after, w.HasFile g (bytes g))
    (htext : ∀ g ∈ before, Source.decode (bytes g) = .ok (text g)) (he : Source.decode (bytes f) = .error e) :
    lintFiles w (before ++ f :: after) =
      ⟨1, String.join (before.map fun g => (lintFiles w [g]).stdout), Failure.text ⟨f, [e.message]⟩⟩ := by
  have read : ∀ g ∈ before, readText w g = (.ok (text g), w) :=
    fun g hg => (hfile g (List.mem_append_left _ hg)).readText_ok (htext g hg)
  have failed : (readText w f).1 = .error ⟨f, [e.message]⟩ := by
    rw [(hfile f (List.mem_append_right _ List.mem_cons_self)).readText_error he]
  have alone (g : String) (hg : g ∈ before) : (lintFiles w [g]).stdout = unlines (lintText g (text g)).lines := by
    rw [lintFiles, reportEach_eq fun k hk => read k (List.mem_singleton.1 hk ▸ hg)]
    exact congrArg unlines (List.flatMap_singleton _ _)
  rw [lintFiles, reportEach_stop read failed, List.map_congr_left alone]
  simp only [Outcome.ofReports, Failure.outcome, List.flatMap_map, unlines_flatMap]

end Files

/-! ## The program on files -/

/-- With files to lint or to check, that is what the program does. -/
theorem run_files {files : List String} (hne : files ≠ []) (h : ∀ f ∈ files, IsPath f) (w : Workspace) :
    run ("lint" :: files) w = lintFiles w files ∧ run ("check" :: files) w = checkFiles false w files := by
  obtain ⟨lint, check⟩ := readArguments_paths hne h
  rw [run, run, lint, check]
  exact ⟨rfl, rfl⟩

theorem run_file {f : String} (h : IsPath f) (w : Workspace) :
    run ["lint", f] w = lintFiles w [f] ∧ run ["check", f] w = checkFiles false w [f] :=
  run_files (List.cons_ne_nil f []) (fun _ hg => List.mem_singleton.1 hg ▸ h) w

/-- `check` treats its files independently, whatever bytes are in them, and so does `lint`
    if all of them are texts, whether or not they parse. Otherwise the first that is no
    text ends the run of `lint`: what it printed about the files before stands, and
    nothing is said about the files after. -/
theorem lint_until_undecodable {w : Workspace} {files : List String} (hne : files ≠ []) (hpath : ∀ f ∈ files, IsPath f)
    (bytes : String → ByteArray) (hfile : ∀ f ∈ files, w.HasFile f (bytes f)) :
    (∀ text : String → String, (∀ f ∈ files, Source.decode (bytes f) = .ok (text f)) →
      Independent (fun fs => run ("lint" :: fs) w) (fun f => (lintText f (text f)).errors)
        (fun f => (lintText f (text f)).warnings) files) ∧
    (∀ (text : String → String) (before after : List String) (f : String) (e : LexError), files = before ++ f :: after →
      (∀ g ∈ before, Source.decode (bytes g) = .ok (text g)) → Source.decode (bytes f) = .error e →
      run ("lint" :: files) w =
        ⟨1, String.join (before.map fun g => (run ["lint", g] w).stdout), Failure.text ⟨f, [e.message]⟩⟩) ∧
    Independent (fun fs => run ("check" :: fs) w) (fun f => (checkFile false f (bytes f)).errors)
      (fun f => (checkFile false f (bytes f)).warnings) files := by
  refine ⟨?_, ?_, ?_⟩
  · intro text htext
    exact (lintFiles_independent hfile htext).congr (run_files hne hpath w).1 fun f hf => (run_file (hpath f hf) w).1
  · intro text before after f e hfiles htext he
    subst hfiles
    have alone (g : String) (hg : g ∈ before) : (run ["lint", g] w).stdout = (lintFiles w [g]).stdout := by
      rw [(run_file (hpath g (List.mem_append_left _ hg)) w).1]
    rw [(run_files hne hpath w).1, lintFiles_stop hfile htext he, List.map_congr_left alone]
  · exact (checkFiles_independent false hfile).congr (run_files hne hpath w).2 fun f hf => (run_file (hpath f hf) w).2

/-- What is in the files of `mixedFolder`: one is no text, the other ones are documents. -/
def mixedBytes (path : String) : ByteArray := if path = "a.serv" then ⟨#[0xff]⟩ else "message M { }".toUTF8

def mixedFolder : Workspace :=
  .ofFolder (["a.serv", "b.serv", "c.serv"].map fun path => (path, mixedBytes path)) ByteArray.empty

theorem path_mixedFolder {path : String} (h : path ∈ ["a.serv", "b.serv", "c.serv"]) :
    IsPath path ∧ mixedFolder.HasFile path (mixedBytes path) := by
  simp only [List.mem_cons, List.not_mem_nil, or_false] at h
  rcases h with rfl | rfl | rfl <;> exact ⟨⟨by decide +kernel, by decide⟩, ⟨by decide, rfl⟩⟩

/-- The run ends between two files that are documents. -/
theorem lint_until_undecodable_mixed :
    (run ["lint", "b.serv", "a.serv", "c.serv"] mixedFolder =
      ⟨1, "b.serv: M: warning: message `M` has no members [empty-message]\n",
        "Error: a.serv\n\nCaused by:\n    1:1: invalid UTF-8 byte 0xff\n"⟩) ∧
    Independent (fun fs => run ("lint" :: fs) mixedFolder) (fun f => (lintText f "message M { }").errors)
      (fun f => (lintText f "message M { }").warnings) ["b.serv", "c.serv"] := by
  have paths : ["b.serv", "a.serv", "c.serv"] ⊆ ["a.serv", "b.serv", "c.serv"] := by decide
  have documents : ["b.serv", "c.serv"] ⊆ ["a.serv", "b.serv", "c.serv"] := by decide
  have document (f : String) (hf : f ≠ "a.serv") : Source.decode (mixedBytes f) = .ok "message M { }" := by
    rw [mixedBytes, if_neg hf, Source.decode_toUTF8]
  have stopped := (lint_until_undecodable (List.cons_ne_nil _ _) (fun f hf => (path_mixedFolder (paths hf)).1) mixedBytes
    fun f hf => (path_mixedFolder (paths hf)).2).2.1 (fun _ => "message M { }") ["b.serv"] ["c.serv"] "a.serv"
      ⟨.invalidByte 0xff, .start⟩ rfl (fun g hg => document g (by simp_all)) (by decide +kernel)
  refine ⟨stopped.trans (by decide +kernel), ?_⟩
  exact (lint_until_undecodable (List.cons_ne_nil _ _) (fun f hf => (path_mixedFolder (documents hf)).1) mixedBytes
    fun f hf => (path_mixedFolder (documents hf)).2).1 _ fun f hf => document f (by rintro rfl; simp at hf)

/-- A file that is no text keeps `lint` from the one after it. -/
theorem lint_not_independent :
    (∀ f ∈ ["a.serv", "b.serv"], IsPath f ∧ mixedFolder.HasFile f (mixedBytes f)) ∧
    (run ["lint", "a.serv", "b.serv"] mixedFolder).stdout ≠
      String.join (["a.serv", "b.serv"].map fun f => (run ["lint", f] mixedFolder).stdout) := by
  have paths : ["a.serv", "b.serv"] ⊆ ["a.serv", "b.serv", "c.serv"] := by decide
  exact ⟨fun f hf => path_mixedFolder (paths hf), by decide +kernel⟩

end ServLang.Command
