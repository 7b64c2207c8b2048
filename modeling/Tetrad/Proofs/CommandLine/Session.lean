import Tetrad.CommandLine.Directory
import Tetrad.Proofs.Program.Encoding

/-!
# Sessions: commands in one directory, one after another

A file is made before all bytes for it are there, so a command that fails half way could leave a
part of a program image. It does not: an assembled program always has its bytes, and everything else
that can go wrong does so before (`Request.assembleText_of_ok`). So each command either leaves every
file as it was or makes one whole image (`Directory.served_perform`), and every file at the end of a
session is one of the start or such an image (`Directory.served_session`).
-/

namespace Tetrad

namespace Directory

variable {directory : Directory} {name : String}

theorem lookup_replace (files : List (String × List UInt8)) (name : String) (bytes : List UInt8)
    (other : String) :
    (files.map fun file => if file.1 == name then (name, bytes) else file).lookup other =
      if other = name then (files.lookup other).map fun _ => bytes else files.lookup other := by
  induction files with
  | nil => simp
  | cons file rest ih =>
    obtain ⟨own, content⟩ := file
    simp only [beq_iff_eq] at ih
    by_cases asked : other = own
    · subst asked
      by_cases same : other = name
      · simp [same]
      · simp [same]
    · have apart : (other == own) = false := beq_eq_false_iff_ne.mpr asked
      by_cases same : own = name
      · subst same
        simp [List.lookup_cons, apart, asked, ih]
      · simp [List.lookup_cons, apart, same, ih]

theorem content?_put (directory : Directory) (name : String) (bytes : List UInt8)
    (other : String) : (directory.put name bytes).content? other =
      if other = name then some bytes else directory.content? other := by
  by_cases present : (directory.content? name).isSome = true
  · have put : directory.put name bytes =
        ⟨directory.files.map fun file => if file.1 == name then (name, bytes) else file⟩ :=
      if_pos present
    obtain ⟨content, found⟩ := Option.isSome_iff_exists.mp present
    rw [put, content?, lookup_replace]
    by_cases asked : other = name
    · subst asked
      rw [content?] at found
      simp [found]
    · simp [asked, content?]
  · have put : directory.put name bytes = ⟨directory.files ++ [(name, bytes)]⟩ := if_neg present
    have absent : directory.files.lookup name = none := Option.not_isSome_iff_eq_none.mp present
    rw [put, content?, List.lookup_append]
    by_cases asked : other = name
    · subst asked
      simp [absent]
    · have apart : (other == name) = false := beq_eq_false_iff_ne.mpr asked
      simp [asked, content?, List.lookup_cons, apart]

theorem name_of_locate_image {output : String} (plain : '/' ∉ output.toList)
    (located : directory.locate (Request.romPath output) = .ok name) :
    name = Request.romPath output := by
  have chars : (Request.romPath output).toList = output.toList ++ ['.', 'c', 'h', 'i', 'p'] := by
    rw [Request.romPath, String.toList_append]
    rfl
  have alone : parts (Request.romPath output) = [Request.romPath output] := by
    have absent : ∀ c ∈ (Request.romPath output).toList, (c == '/') = false := by
      intro c member
      refine beq_eq_false_iff_ne.mpr fun same => ?_
      simp [chars, same, plain] at member
    rw [parts, List.splitOn, List.splitOnP_eq_singleton absent]
    simp
  have long : 4 < (Request.romPath output).toList.length := by simp [chars]
  have step : (Request.romPath output != "" && Request.romPath output != ".") = true := by
    rw [Bool.and_eq_true, bne_iff_ne, bne_iff_ne]
    constructor <;> intro same <;> rw [same] at long <;> exact absurd long (by decide)
  unfold locate at located
  simp only [alone, List.filter_cons, step, List.filter_nil, ↓reduceIte] at located
  split at located
  · cases located
  · split at located
    · cases located
    · simp only [List.isEmpty_nil, beq_self_eq_true, Bool.and_self, ↓reduceIte] at located
      exact (Except.ok.inj located).symm

end Directory

namespace Request

/-- What is said of a program that was assembled. -/
def report (source output : String) (symbols : Bool) (program : Program) : String :=
  "Assembled " ++ source ++ " -> " ++ romPath output ++ " ("
    ++ Numeral.decimal program.instructions.length ++ " instructions, "
    ++ Numeral.decimal (4 * program.instructions.length) ++ " bytes)\n"
    ++ if symbols then program.labels.json ++ "\n" else ""

/-- An assembled program is always written whole, as its stream meets no error. -/
theorem assembleText_of_ok (source output : String) (symbols : Bool) {text : String}
    {base : Option UInt16} {program : Program}
    (assembled : Program.assemble Table.standard (base.getD loadAddress) text = .ok program) :
    ∃ rom, program.bytes = .ok rom ∧ rom.length = 4 * program.instructions.length ∧
      assembleText source output symbols base text =
        ⟨.success (report source output symbols program), some (romPath output, rom)⟩ := by
  obtain ⟨words, encoded, whole⟩ := Program.exists_words assembled
  have size : (words.flatMap wordBytes).length = 4 * program.instructions.length := by
    rw [length_flatMap_wordBytes, encoded.length_eq]
  have collected : program.stream.collect.1 = ⟨words.flatMap wordBytes, none⟩ := by
    rw [Program.bytes_eq_collect] at whole
    exact ByteStream.Pulled.whole_eq_ok_iff.mp whole
  have read : (ByteStream.start program.statements program.labels).readToEnd =
      (⟨words.flatMap wordBytes, none⟩, program.stream.collect.2) := Prod.ext collected rfl
  refine ⟨words.flatMap wordBytes, whole, size, ?_⟩
  simp only [assembleText, assembled, read, size]
  rfl

end Request

namespace Directory

variable {directory : Directory} {arguments : List String} {source output name : String}
  {symbols : Bool} {base : Option UInt16} {program : Program}

/-- A file of the directory is the source of a program at a base address. -/
def Makes (directory : Directory) (source : String) (base : UInt16) (program : Program) : Prop :=
  ∃ bytes text, directory.read source = .ok bytes ∧ Request.decodeText? bytes = some text ∧
    Program.assemble Table.standard base text = .ok program

theorem perform_of_silent {request : Request} {reply : Reply}
    (asked : Request.ofArguments arguments = .ok request)
    (respond : request.respond (directory.read request.input) = ⟨reply, none⟩) :
    directory.perform arguments = (reply, directory) := by
  simp only [perform, asked, respond]

theorem perform_of_output {request : Request} {reply : Reply} {path : String} {bytes : List UInt8}
    (asked : Request.ofArguments arguments = .ok request)
    (respond : request.respond (directory.read request.input) = ⟨reply, some (path, bytes)⟩) :
    directory.perform arguments =
      match directory.locate path with
      | .ok name => (reply, directory.put name bytes)
      | .error error => (uncreated path error, directory) := by
  simp only [perform, asked, respond, create]
  cases directory.locate path <;> rfl

/-- A source that makes a program has its whole image written. -/
theorem respond_of_makes (output : String) (symbols : Bool)
    (makes : directory.Makes source (base.getD loadAddress) program) :
    ∃ rom, program.bytes = .ok rom ∧ rom.length = 4 * program.instructions.length ∧
      (Request.assemble source output symbols base).respond (directory.read source) =
        ⟨.success (Request.report source output symbols program),
          some (Request.romPath output, rom)⟩ := by
  obtain ⟨bytes, text, read, decoded, assembled⟩ := makes
  obtain ⟨rom, whole, size, written⟩ :=
    Request.assembleText_of_ok source output symbols assembled
  refine ⟨rom, whole, size, ?_⟩
  simp only [Request.respond, read, decoded]
  exact written

/-- A source that makes none has nothing written. -/
theorem respond_of_not_makes (output : String) (symbols : Bool)
    (lacks : ∀ program, ¬ directory.Makes source (base.getD loadAddress) program) :
    ∃ reply, reply.code = 1 ∧
      (Request.assemble source output symbols base).respond (directory.read source) =
        ⟨reply, none⟩ := by
  cases read : directory.read source with
  | error error => exact ⟨_, rfl, rfl⟩
  | ok bytes =>
    cases decoded : Request.decodeText? bytes with
    | none =>
      simp only [Request.respond, decoded]
      exact ⟨_, rfl, rfl⟩
    | some text =>
      cases assembled : Program.assemble Table.standard (base.getD loadAddress) text with
      | ok program => exact absurd ⟨bytes, text, read, decoded, assembled⟩ (lacks program)
      | error error =>
        simp only [Request.respond, decoded, Request.assembleText, assembled]
        exact ⟨_, rfl, rfl⟩

theorem perform_of_makes
    (asked : Request.ofArguments arguments = .ok (.assemble source output symbols base))
    (makes : directory.Makes source (base.getD loadAddress) program)
    (located : directory.locate (Request.romPath output) = .ok name) :
    ∃ rom, program.bytes = .ok rom ∧ rom.length = 4 * program.instructions.length ∧
      directory.perform arguments =
        (.success (Request.report source output symbols program), directory.put name rom) := by
  obtain ⟨rom, whole, size, respond⟩ := respond_of_makes output symbols makes
  refine ⟨rom, whole, size, ?_⟩
  rw [perform_of_output asked respond, located]

theorem perform_of_not_makes
    (asked : Request.ofArguments arguments = .ok (.assemble source output symbols base))
    (lacks : ∀ program name, directory.Makes source (base.getD loadAddress) program →
      directory.locate (Request.romPath output) ≠ .ok name) :
    (directory.perform arguments).1.code = 1 ∧ (directory.perform arguments).2 = directory := by
  by_cases made : ∃ program, directory.Makes source (base.getD loadAddress) program
  · obtain ⟨program, makes⟩ := made
    obtain ⟨rom, -, -, respond⟩ := respond_of_makes output symbols makes
    rw [perform_of_output asked respond]
    cases located : directory.locate (Request.romPath output) with
    | ok name => exact absurd located (lacks program name makes)
    | error error => exact ⟨rfl, rfl⟩
  · obtain ⟨reply, failed, respond⟩ := respond_of_not_makes output symbols (not_exists.mp made)
    rw [perform_of_silent asked respond]
    exact ⟨failed, rfl⟩

theorem perform_of_not_assemble
    (other : ∀ source output symbols base,
      Request.ofArguments arguments ≠ .ok (.assemble source output symbols base)) :
    (directory.perform arguments).2 = directory := by
  cases asked : Request.ofArguments arguments with
  | error stop => simp only [perform, asked]
  | ok request =>
    have silent : ∃ reply, request.respond (directory.read request.input) = ⟨reply, none⟩ := by
      cases request with
      | assemble source output symbols base => exact absurd asked (other source output symbols base)
      | run rom | disassemble rom =>
        cases read : directory.read rom <;> simp only [Request.respond, Request.input, read] <;>
          exact ⟨_, rfl⟩
    obtain ⟨reply, respond⟩ := silent
    rw [perform_of_silent asked respond]

/-- What one command does to the files of a directory. One that fails, and any that does not
assemble, leaves all of them as they were. An assembly succeeds just if its source makes a program
and there is a place for the image. Then this one file holds the bytes of the program, all other
files are as they were, and the report tells the number of the bytes, four for each instruction. -/
structure Served (directory : Directory) (arguments : List String) (reply : Reply)
    (after : Directory) : Prop where
  failed : reply.code ≠ 0 → after = directory
  idle : (∀ source output symbols base,
    Request.ofArguments arguments ≠ .ok (.assemble source output symbols base)) → after = directory
  succeeds : ∀ source output symbols base program name,
    Request.ofArguments arguments = .ok (.assemble source output symbols base) →
    directory.Makes source (base.getD 0x200) program →
    directory.locate (output ++ ".chip") = .ok name → reply.code = 0
  assembled : ∀ source output symbols base,
    Request.ofArguments arguments = .ok (.assemble source output symbols base) → reply.code = 0 →
    ∃ program name rom, directory.Makes source (base.getD 0x200) program ∧
      directory.locate (output ++ ".chip") = .ok name ∧
      ('/' ∉ output.toList → name = output ++ ".chip") ∧
      program.bytes = .ok rom ∧ rom.length = 4 * program.instructions.length ∧
      reply = .success (Request.report source output symbols program) ∧
      ∀ file, after.content? file = if file = name then some rom else directory.content? file

theorem served_perform (directory : Directory) (arguments : List String) :
    directory.Served arguments (directory.perform arguments).1 (directory.perform arguments).2 := by
  refine ⟨?_, perform_of_not_assemble, ?_, ?_⟩
  · intro failed
    by_cases asked : ∃ source output symbols base,
        Request.ofArguments arguments = .ok (.assemble source output symbols base)
    · obtain ⟨source, output, symbols, base, asked⟩ := asked
      by_cases made : ∃ program name, directory.Makes source (base.getD loadAddress) program ∧
          directory.locate (Request.romPath output) = .ok name
      · obtain ⟨program, name, makes, located⟩ := made
        obtain ⟨rom, -, -, performed⟩ := perform_of_makes asked makes located
        rw [performed] at failed
        exact absurd rfl failed
      · refine (perform_of_not_makes asked fun program name makes located => ?_).2
        exact made ⟨program, name, makes, located⟩
    · refine perform_of_not_assemble fun source output symbols base same => ?_
      exact asked ⟨source, output, symbols, base, same⟩
  · intro source output symbols base program name asked makes located
    obtain ⟨rom, -, -, performed⟩ := perform_of_makes asked makes located
    rw [performed]
    rfl
  · intro source output symbols base asked succeeded
    by_cases made : ∃ program name, directory.Makes source (base.getD loadAddress) program ∧
        directory.locate (Request.romPath output) = .ok name
    · obtain ⟨program, name, makes, located⟩ := made
      obtain ⟨rom, whole, size, performed⟩ := perform_of_makes asked makes located
      rw [performed]
      exact ⟨program, name, rom, makes, located, fun plain => name_of_locate_image plain located,
        whole, size, rfl, content?_put directory name rom⟩
    · have failed := (perform_of_not_makes asked fun program name makes located =>
        made ⟨program, name, makes, located⟩).1
      rw [succeeded] at failed
      exact absurd failed Nat.zero_ne_one

def after (directory : Directory) (commands : List (List String)) : Directory :=
  commands.foldl (fun directory arguments => (directory.perform arguments).2) directory

theorem after_cons (directory : Directory) (arguments : List String)
    (rest : List (List String)) :
    directory.after (arguments :: rest) = (directory.perform arguments).2.after rest := rfl

theorem after_concat (directory : Directory) (earlier : List (List String))
    (arguments : List String) :
    directory.after (earlier ++ [arguments]) = ((directory.after earlier).perform arguments).2 :=
  List.foldl_concat ..

/-- The bytes are the whole image of a program that one of the commands assembled. -/
def Assembled (directory : Directory) (commands : List (List String)) (rom : List UInt8) : Prop :=
  ∃ earlier arguments later source output symbols base program,
    commands = earlier ++ arguments :: later ∧
    Request.ofArguments arguments = .ok (.assemble source output symbols base) ∧
    (directory.after earlier).Makes source (base.getD 0x200) program ∧ program.bytes = .ok rom

theorem Assembled.cons {commands : List (List String)} {rom : List UInt8}
    (assembled : (directory.perform arguments).2.Assembled commands rom) :
    directory.Assembled (arguments :: commands) rom := by
  obtain ⟨earlier, own, later, source, output, symbols, base, program, rfl, others⟩ := assembled
  exact ⟨arguments :: earlier, own, later, source, output, symbols, base, program, rfl, others⟩

/-- After one command a file is as it was before, or it is the image that the command assembled. -/
theorem Served.content? (served : directory.Served arguments (directory.perform arguments).1
    (directory.perform arguments).2) (file : String) (later : List (List String)) :
    (directory.perform arguments).2.content? file = directory.content? file ∨
      ∃ rom, (directory.perform arguments).2.content? file = some rom ∧
        directory.Assembled (arguments :: later) rom := by
  by_cases failed : (directory.perform arguments).1.code ≠ 0
  · rw [served.failed failed]
    exact .inl rfl
  · by_cases asked : ∃ source output symbols base,
        Request.ofArguments arguments = .ok (.assemble source output symbols base)
    · obtain ⟨source, output, symbols, base, asked⟩ := asked
      obtain ⟨program, name, rom, makes, -, -, whole, -, -, contents⟩ :=
        served.assembled _ _ _ _ asked (not_not.mp failed)
      rw [contents]
      by_cases own : file = name
      · rw [if_pos own]
        exact .inr ⟨rom, rfl, [], arguments, later, source, output, symbols, base, program, rfl,
          asked, makes, whole⟩
      · rw [if_neg own]
        exact .inl rfl
    · rw [served.idle fun source output symbols base same =>
        asked ⟨source, output, symbols, base, same⟩]
      exact .inl rfl

theorem content?_after (directory : Directory) (commands : List (List String)) (file : String) :
    (directory.after commands).content? file = directory.content? file ∨
      ∃ rom, (directory.after commands).content? file = some rom ∧
        directory.Assembled commands rom := by
  induction commands generalizing directory with
  | nil => exact .inl rfl
  | cons arguments rest ih =>
    rw [after_cons]
    rcases ih (directory.perform arguments).2 with kept | ⟨rom, holds, assembled⟩
    · rw [kept]
      exact (served_perform directory arguments).content? file rest
    · exact .inr ⟨rom, holds, assembled.cons⟩

/-- Every command of a session is served in the directory that the commands before it have left, so
a file at the end of the session is as it was at the start, or it is the whole image of a program
that was assembled. -/
theorem served_session (directory : Directory) (commands : List (List String)) :
    (∀ earlier arguments later, commands = earlier ++ arguments :: later →
      (directory.after earlier).Served arguments ((directory.after earlier).perform arguments).1
        (directory.after (earlier ++ [arguments]))) ∧
    ∀ file, (directory.after commands).content? file = directory.content? file ∨
      ∃ rom, (directory.after commands).content? file = some rom ∧
        directory.Assembled commands rom := by
  refine ⟨?_, content?_after directory commands⟩
  intro earlier arguments later split
  rw [after_concat]
  exact served_perform _ arguments

/-- A source that halts, and one that jumps to a label it does not declare. -/
def haltAndLost : Directory :=
  ⟨[("halt.s", [0x48, 0x4C, 0x54]), ("lost.s", [0x4A, 0x4D, 0x50, 0x20, 0x2E, 0x78])]⟩

/-- An image is made, and the next command fails to make another one in its place. -/
theorem served_session_kept :
    haltAndLost.Served ["assemble", "halt.s", "p"]
      ⟨0, "Assembled halt.s -> p.chip (1 instructions, 4 bytes)\n", ""⟩
      (haltAndLost.after [["assemble", "halt.s", "p"]]) ∧
    ((haltAndLost.after [["assemble", "halt.s", "p"]]).perform ["assemble", "lost.s", "p"]).1.code =
      1 ∧
    (haltAndLost.after [["assemble", "halt.s", "p"], ["assemble", "lost.s", "p"]]).content?
      "p.chip" = some [0, 0, 0, 0] ∧
    ∃ rom, [0, 0, 0, 0] = rom ∧
      haltAndLost.Assembled [["assemble", "halt.s", "p"], ["assemble", "lost.s", "p"]] rom := by
  obtain ⟨each, files⟩ :=
    served_session haltAndLost [["assemble", "halt.s", "p"], ["assemble", "lost.s", "p"]]
  have first := each [] ["assemble", "halt.s", "p"] [["assemble", "lost.s", "p"]] rfl
  have reply : (haltAndLost.perform ["assemble", "halt.s", "p"]).1 =
      ⟨0, "Assembled halt.s -> p.chip (1 instructions, 4 bytes)\n", ""⟩ := by decide +kernel
  have holds : (haltAndLost.after
      [["assemble", "halt.s", "p"], ["assemble", "lost.s", "p"]]).content? "p.chip" =
        some [0, 0, 0, 0] := by decide +kernel
  have absent : haltAndLost.content? "p.chip" = none := by decide +kernel
  refine ⟨reply ▸ first, by decide +kernel, holds, ?_⟩
  rcases files "p.chip" with kept | ⟨rom, same, assembled⟩
  · rw [holds, absent] at kept
    cases kept
  · exact ⟨rom, Option.some.inj (holds.symm.trans same), assembled⟩

end Directory

end Tetrad
