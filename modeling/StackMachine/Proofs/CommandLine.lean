import StackMachine.CommandLine
import StackMachine.Proofs.Image
import StackMachine.Proofs.Text

/-!
# Files of either kind

A file is read as an image when it starts with the magic number, and as assembly text otherwise.
Images of well-formed programs are therefore never taken for text, and a text is taken for an image
exactly when it starts with the letters of the magic number, which a label may.  Apart from such
texts every command treats a file according to what it holds.
-/

namespace StackMachine

namespace CommandLine

/-- The letters of the magic number. -/
def magicText : List Char := ['P', 'I', 'L', 'A']

/-- Bytes hold a program when they are the text of one, without the magic number in front, or the
image of one that is well formed. -/
inductive Holds : List UInt8 → Program → Prop
  | source {source : String} {program : Program} (assembled : assemble source = .ok program)
      (apart : ¬ magicText <+: source.toList) : Holds (Utf8.encode source.toList) program
  | image {program : Program} (wellFormed : program.verify = .ok ()) (fits : program.FitsImage) :
      Holds program.image program

/-- A text starts with the magic number when its letters do. -/
theorem hasMagic_encode_iff (text : List Char) :
    Program.hasMagic (Utf8.encode text) = true ↔ magicText <+: text := by
  have magic_eq : Program.magic = Utf8.encode magicText := by decide
  rw [Program.hasMagic, List.isPrefixOf_iff_prefix, magic_eq]
  exact Utf8.encode_prefix_encode_iff (by simp [magicText])

theorem hasMagic_image (program : Program) : Program.hasMagic program.image = true :=
  Program.hasMagic_iff.mpr ⟨_, rfl⟩

/-- The program found in bytes is the one they hold. -/
theorem programOfBytes_eq_ok_iff {path : String} {bytes : List UInt8} {program : Program} :
    programOfBytes path bytes = .ok program ↔ Holds bytes program := by
  unfold programOfBytes
  split
  · rename_i magical
    rw [mapError_eq_ok_iff, Program.load_eq_ok_iff, Program.read_eq_ok_iff]
    constructor
    · rintro ⟨⟨fits, rfl⟩, wellFormed⟩
      exact .image wellFormed fits
    · rintro (⟨_, apart⟩ | ⟨wellFormed, fits⟩)
      · exact absurd ((hasMagic_encode_iff _).mp magical) apart
      · exact ⟨⟨fits, rfl⟩, wellFormed⟩
  · rename_i plain
    constructor
    · intro accepted
      split at accepted
      · cases accepted
      · rename_i source decoded
        obtain rfl := Utf8.decode?_eq_some_iff.mp decoded
        rw [hasMagic_encode_iff] at plain
        exact .source (mapError_eq_ok_iff.mp accepted) plain
    · rintro (⟨assembled, _⟩ | _)
      · rw [Utf8.decode?_eq_some_iff.mpr rfl]
        exact mapError_eq_ok_iff.mpr assembled
      · exact absurd (hasMagic_image program) plain

theorem loadFile_eq_ok_iff {files : Files} {path : String} {program : Program} :
    loadFile files path = .ok program ↔
      ∃ bytes, files.read path = .ok bytes ∧ Holds bytes program := by
  unfold loadFile
  cases files.read path with
  | error reason => exact iff_of_false nofun (by rintro ⟨_, ⟨⟩, _⟩)
  | ok bytes => simp [programOfBytes_eq_ok_iff]

theorem loadFile_of_magic {files : Files} {path : String} {bytes : List UInt8}
    (found : files.read path = .ok bytes) (magical : Program.hasMagic bytes = true) :
    loadFile files path =
      (Program.load bytes).mapError fun reason => "bad bytecode: " ++ reason.message := by
  simp only [loadFile, found, programOfBytes, magical, if_true]

/-- What the commands do with a file that holds a program. -/
structure ActsOn (files : Files) (path : String) (program : Program) : Prop where
  assembled (fuel : Nat) (output : String) : files.write output = .ok () →
    execute fuel files (.assemble path output) = some { written := some program.image }
  disassembled (fuel : Nat) : execute fuel files (.disassemble path) =
    some { printed := Utf8.encode (disassemble program).toList }
  ran (fuel : Nat) (options : RunOptions) :
    execute fuel files (.run path options) = runProgram fuel options program

theorem actsOn_of_loadFile {files : Files} {path : String} {program : Program}
    (loaded : loadFile files path = .ok program) : ActsOn files path program where
  assembled := by
    intro fuel output writable
    simp only [execute, loaded, writable]
  disassembled fuel := by simp only [execute, loaded]
  ran fuel options := by simp only [execute, loaded]

/-- The loader finds in a file exactly the program that the file holds, whichever of the two kinds
it is, and every command acts on that program.  A text that starts with the letters of the magic
number counts as an image, whatever it assembles to. -/
theorem loadFile_eq_ok_iff_holds (files : Files) (path : String) :
    (∀ program, loadFile files path = .ok program ↔
      ∃ bytes, files.read path = .ok bytes ∧ Holds bytes program) ∧
    (∀ bytes program, files.read path = .ok bytes → Holds bytes program →
      ActsOn files path program) ∧
    ∀ source : String, files.read path = .ok (Utf8.encode source.toList) →
      magicText <+: source.toList →
        loadFile files path = (Program.load (Utf8.encode source.toList)).mapError
          fun reason => "bad bytecode: " ++ reason.message := by
  refine ⟨?_, ?_, ?_⟩
  · intro program
    exact loadFile_eq_ok_iff
  · intro bytes program found held
    exact actsOn_of_loadFile (loadFile_eq_ok_iff.mpr ⟨bytes, found, held⟩)
  · intro source found magical
    exact loadFile_of_magic found ((hasMagic_encode_iff _).mpr magical)

/-- The files that all hold the same bytes and can all be written. -/
def uniformFiles (bytes : List UInt8) : Files where
  read _ := .ok bytes
  write _ := .ok ()

/-- A label of the letters of the magic number is a label after a blank, and an image that reads as
a label and a comment is an image. -/
theorem loadFile_of_near_misses :
    loadFile (uniformFiles (Utf8.encode " PILA:\nhalt\n".toList)) "p" = .ok ⟨[], [0xff]⟩ ∧
      execute 0 (uniformFiles (Utf8.encode " PILA:\nhalt\n".toList)) (.assemble "p" "q") =
        some { written := some (Program.image ⟨[], [0xff]⟩) } ∧
      assemble "PILA\x01\x01\x00\x00\x00\x02\x00\x00\x00:;\x00\x00\x00\x00" = .ok ⟨[], []⟩ ∧
      loadFile (uniformFiles (Utf8.encode
          "PILA\x01\x01\x00\x00\x00\x02\x00\x00\x00:;\x00\x00\x00\x00".toList)) "p" =
        .ok ⟨[[0x3a, 0x3b]], []⟩ := by
  have assembled : assemble " PILA:\nhalt\n" = .ok ⟨[], [0xff]⟩ := by decide +kernel
  have source : Holds (Utf8.encode " PILA:\nhalt\n".toList) ⟨[], [0xff]⟩ :=
    .source assembled (by decide)
  have fits : Program.FitsImage ⟨[[0x3a, 0x3b]], []⟩ := by
    simp [Program.FitsImage, UInt32.size]
  have image : Holds (Program.image ⟨[[0x3a, 0x3b]], []⟩) ⟨[[0x3a, 0x3b]], []⟩ :=
    .image (by decide +kernel) fits
  have bytes_eq : Utf8.encode
      "PILA\x01\x01\x00\x00\x00\x02\x00\x00\x00:;\x00\x00\x00\x00".toList =
      Program.image ⟨[[0x3a, 0x3b]], []⟩ := by
    decide +kernel
  obtain ⟨loads, acts, _⟩ :=
    loadFile_eq_ok_iff_holds (uniformFiles (Utf8.encode " PILA:\nhalt\n".toList)) "p"
  refine ⟨(loads _).mpr ⟨_, rfl, source⟩, (acts _ _ rfl source).assembled 0 "q" rfl, ?_, ?_⟩
  · decide +kernel
  · rw [bytes_eq]
    exact ((loadFile_eq_ok_iff_holds _ "p").1 _).mpr ⟨_, rfl, image⟩

/-- A text that starts with the letters of the magic number may assemble and is still refused, since
it is no image. -/
theorem loadFile_ne_ok_of_magic_label :
    assemble "PILA:\nhalt\n" = .ok ⟨[], [0xff]⟩ ∧
      loadFile (uniformFiles (Utf8.encode "PILA:\nhalt\n".toList)) "p" =
        .error "bad bytecode: unsupported format version 58" := by
  constructor <;> decide +kernel

end CommandLine

end StackMachine
