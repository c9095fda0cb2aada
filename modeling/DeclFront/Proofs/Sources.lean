import DeclFront.Proofs.Reports

/-! Texts that are handed over, and texts that are read from a file. A job makes the same of both as
long as the text is within the limit on the size of a source. That limit is put on files alone. -/

namespace DeclFront

variable {storage : Storage} {name text : String} {limit : Nat}

/-- Under that name there is a file with that text, and it can be read. -/
def Storage.Holds (storage : Storage) (name text : String) : Prop :=
  storage name = .ok ⟨text.utf8ByteSize, .ok text.toUTF8⟩

theorem decodeText_toUTF8 (text : String) : decodeText text.toUTF8 = .ok text := by
  have hvalid : text.toUTF8.IsValidUTF8 := text.isValidUTF8
  have hread : String.fromUTF8? text.toUTF8 = some text := dif_pos hvalid
  rw [decodeText, hread]

theorem Storage.Holds.read (h : storage.Holds name text) (limit : Nat) :
    (Source.path name).read storage limit =
      if limit < text.utf8ByteSize then .error (.tooLarge name text.utf8ByteSize limit)
      else .ok text := by
  rw [Source.read, h, mapError_ok, ok_bind]
  by_cases hsize : limit < text.utf8ByteSize
  · simp only [hsize, if_true]
    rfl
  · simp only [hsize, if_false, ok_bind, decodeText_toUTF8]
    rfl

/-- Once its text is there, a job does not ask where it came from, nor for the limit. -/
theorem run_inline_eq {source : Source} (config : Config)
    (h : source.read storage limit = .ok text) (b : Interrupt) :
    Job.run storage config (.inline name text) b =
      Job.run storage { config with maxSourceBytes := limit } source b := by
  have hinline : (Source.inline name text).read storage config.maxSourceBytes = .ok text := rfl
  have hprocess (b : Interrupt) :
      Job.process { config with maxSourceBytes := limit } b text = Job.process config b text := rfl
  unfold Job.run
  simp only [hinline, h, hprocess]

/-- Up to the limit, a text and a file that holds it give the same run. Beyond it the file is refused
for its size, and the text is processed as the file would be under a limit that lets it pass. -/
theorem inline_like_file (config : Config) (h : storage.Holds name text) :
    let inline := Job.run storage config (.inline name text) .never
    let file := Job.run storage config (.path name) .never
    (text.utf8ByteSize ≤ config.maxSourceBytes → inline = file) ∧
    (config.maxSourceBytes < text.utf8ByteSize →
      file.outcome = .failed (.tooLarge name text.utf8ByteSize config.maxSourceBytes) ∧
      inline.outcome.text? = some text ∧
      inline = Job.run storage { config with maxSourceBytes := text.utf8ByteSize } (.path name)
        .never) := by
  have hread {limit : Nat} (hsize : text.utf8ByteSize ≤ limit) :
      (Source.path name).read storage limit = .ok text := by
    rw [h.read, if_neg (Nat.not_lt.mpr hsize)]
  refine ⟨fun hsize => run_inline_eq config (hread hsize) .never, fun hsize => ⟨?_, ?_, ?_⟩⟩
  · rw [run_never_outcome, h.read, if_pos hsize]
  · rw [run_never_outcome]
    exact (Job.process_reports config text).text?_eq
  · exact run_inline_eq config (hread (Nat.le_refl _)) .never

theorem inline_like_file_at_limit :
    let text := "import a;"
    let storage : Storage := fun _ => .ok ⟨9, .ok text.toUTF8⟩
    storage.Holds "a" text ∧
      Job.run storage { maxSourceBytes := 9 } (.inline "a" text) .never =
        Job.run storage { maxSourceBytes := 9 } (.path "a") .never ∧
      (Job.run storage { maxSourceBytes := 8 } (.path "a") .never).outcome =
        .failed (.tooLarge "a" 9 8) := by
  intro text storage
  have h : storage.Holds "a" text := rfl
  exact ⟨h, (inline_like_file { maxSourceBytes := 9 } h).1 (by decide),
    ((inline_like_file { maxSourceBytes := 8 } h).2 (by decide)).1⟩

/-- A text of nine bytes passes under a limit of eight, and the file that holds it does not. -/
theorem inline_above_limit :
    let text := "import a;"
    let storage : Storage := fun _ => .ok ⟨9, .ok text.toUTF8⟩
    let inline := Job.run storage { maxSourceBytes := 8 } (.inline "a" text) .never
    let file := Job.run storage { maxSourceBytes := 8 } (.path "a") .never
    storage.Holds "a" text ∧ inline.outcome.state = .completed ∧ inline.outcome.text? = some text ∧
      file.outcome.state = .failed ∧ file.outcome.text? = none := by
  intro text storage inline file
  exact ⟨rfl, by decide +kernel, by decide +kernel, by decide +kernel, by decide +kernel⟩

end DeclFront
