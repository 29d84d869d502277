import TextLines.Document.ConfigFile
import TextLines.Proofs.Json.Reading

/-!
# What files with configurations say

A configuration that is accepted names a file, asks for some bytes at a time, and declares no
encoding without a name (`Config.checked_of_load`). All of its fields are taken as they were given
last.

`JsonReader.grammar` is a library that reads exactly the texts of the grammar. With it what is
written for a configuration is read as this configuration (`Config.ofJson_render`).
-/

namespace TextLines

open Bytes
open Files (FileSystem)

namespace Config

variable {config config' : Config}

/-! ## What is accepted -/

theorem check_eq_ok_iff :
    config.check = .ok config' ↔ config.path ≠ [] ∧ config.chunkBytes ≠ 0 ∧
      { config with encoding := config.encoding.filter (!·.isEmpty) } = config' := by
  unfold check
  constructor
  · intro h
    split at h
    · cases h
    rename_i hpath
    split at h
    · cases h
    rename_i hchunk
    exact ⟨mt List.isEmpty_iff.mpr hpath, hchunk, Except.ok.inj h⟩
  · rintro ⟨hpath, hchunk, rfl⟩
    rw [if_neg (mt List.isEmpty_iff.mp hpath), if_neg hchunk]

/-- What a file with a configuration asks for can be done. -/
theorem checked_of_load [JsonReader] {fs : FileSystem} {path : Bytes}
    (h : load fs path = .ok config) :
    config.path ≠ [] ∧ config.chunkBytes ≠ 0 ∧ config.encoding ≠ some [] := by
  rw [load] at h
  split at h
  · cases h
  rw [ofJson] at h
  split at h
  · cases h
  obtain ⟨hpath, hchunk, rfl⟩ := check_eq_ok_iff.mp h
  exact ⟨hpath, hchunk, fun hnone => absurd (Option.filter_eq_some_iff.mp hnone).2 (by decide)⟩

/-! ## Fields -/

/-- What has a name of its own is found by it. -/
theorem find?_of_mem {α : Type} {options : List (String × α)} {o : String × α}
    (h : options.Pairwise fun o o' => ascii o.1 ≠ ascii o'.1) (ho : o ∈ options) {name : Bytes}
    (hname : name = ascii o.1) : (options.find? fun o' => ascii o'.1 == name) = some o := by
  induction options with
  | nil => cases ho
  | cons first rest ih =>
    obtain ⟨hfirst, hrest⟩ := List.pairwise_cons.mp h
    rcases List.mem_cons.mp ho with rfl | hmem
    · exact List.find?_cons_of_pos (beq_iff_eq.mpr hname.symm)
    · have hother : ¬ (ascii first.1 == name) = true := by
        rw [beq_iff_eq, hname]
        exact hfirst o hmem
      rw [List.find?_cons, eq_false_of_ne_true hother]
      exact ih hrest hmem

theorem takeField_of_mem {name : String} {take : Config → JsonField → Except Bytes Config}
    (h : (name, take) ∈ knownFields) {field : JsonField} (hname : field.name = ascii name) :
    config.takeField field = take config field := by
  have hnames : (knownFields.map (ascii ·.1)).Pairwise (· ≠ ·) := by decide
  rw [takeField, find?_of_mem (List.pairwise_map.mp hnames) h hname]

theorem takeFields_cons {field : JsonField} (h : config.takeField field = .ok config')
    (rest : List (Except Bytes JsonField)) :
    config.takeFields (.ok field :: rest) = config'.takeFields rest := by
  rw [takeFields, h]

theorem ofJson_of_takeFields [JsonReader] {text : Bytes}
    (h : takeFields {} (JsonReader.fields text) = .ok config) : ofJson text = config.check := by
  rw [ofJson, h]

end Config

/-! ## A library that reads JSON -/

/-- The field of an object that has this value. -/
def JsonField.ofJson (name : Bytes) (value : Json) : JsonField where
  name := name
  isNull := .ok (value matches .null)
  string := match value with
    | .string text => .ok text
    | _ => .error (ascii "The JSON element does not have the requested type.")
  truth := match value with
    | .bool truth => .ok truth
    | _ => .error (ascii "The JSON element does not have the requested type.")
  natural := match value with
    | .number ⟨false, n, [], none⟩ =>
      if n < 0x10000000000000000 then .ok (.ofNat n)
      else
        .error (ascii "The JSON number is too large or too small to fit within the requested type.")
    | _ => .error (ascii "The JSON element does not have the requested type.")

/-- The fields of the object that a text of the grammar says. -/
def JsonField.listOf (text : Bytes) : List (Except Bytes JsonField) :=
  match Json.read text with
  | some (.object fields) => fields.map fun field => .ok (.ofJson field.1 field.2)
  | some _ => [.error (ascii "The JSON element does not have the requested type.")]
  | none => [.error (ascii "The JSON document has an improper structure.")]

/-- The library that reads the texts of the grammar. -/
@[reducible] def JsonReader.grammar : JsonReader where
  load fs path :=
    match fs.openFile path with
    | .ok (.content text) => .ok text
    | _ => .error (ascii "Error reading the file.")
  fields := JsonField.listOf

theorem JsonReader.load_grammar {fs : FileSystem} {path text : Bytes}
    (h : fs.openFile path = .ok (.content text)) :
    @JsonReader.load .grammar fs path = .ok text := by
  simp only [JsonReader.load, h]

namespace Config

/-- What is written for a configuration. -/
def toJson (config : Config) : Json :=
  .object [
    (ascii "path", .string config.path),
    (ascii "encoding", config.encoding.elim .null .string),
    (ascii "compressed", .bool config.compressed),
    (ascii "chunk_bytes", .number { whole := config.chunkBytes }),
    (ascii "max_line_bytes", .number { whole := config.maxLineBytes })]

theorem toJson_wellFormed (config : Config) : config.toJson.WellFormed := by
  have hencoding : (config.encoding.elim .null .string : Json).WellFormed := by
    cases config.encoding with
    | none => exact .null
    | some name => exact .string name
  refine .object ?_
  simp only [List.forall_mem_cons]
  exact ⟨.string _, hencoding, .bool _, .number (List.forall_mem_nil _),
    .number (List.forall_mem_nil _), List.forall_mem_nil _⟩

theorem listOf_render (config : Config) :
    JsonField.listOf config.toJson.render = [
      .ok (.ofJson (ascii "path") (.string config.path)),
      .ok (.ofJson (ascii "encoding") (config.encoding.elim .null .string)),
      .ok (.ofJson (ascii "compressed") (.bool config.compressed)),
      .ok (.ofJson (ascii "chunk_bytes") (.number { whole := config.chunkBytes })),
      .ok (.ofJson (ascii "max_line_bytes") (.number { whole := config.maxLineBytes }))] := by
  rw [JsonField.listOf, config.toJson_wellFormed.read_render]
  rfl

theorem takeFields_render (config : Config) (hchunk : config.chunkBytes < 0x10000000000000000)
    (hmax : config.maxLineBytes < 0x10000000000000000) :
    takeFields {} (JsonField.listOf config.toJson.render) = .ok config := by
  obtain ⟨path, encoding, compressed, chunkBytes, maxLineBytes⟩ := config
  have hnatural : ∀ (name : Bytes) (n : Nat), n < 0x10000000000000000 →
      (JsonField.ofJson name (.number { whole := n })).natural = .ok (.ofNat n) :=
    fun name n hn => if_pos hn
  have hpath : takeField {} (.ofJson (ascii "path") (.string path)) = .ok { path } :=
    takeField_of_mem (.head _) rfl
  have hencoding : takeField { path }
      (.ofJson (ascii "encoding") (encoding.elim .null .string)) = .ok { path, encoding } := by
    rw [takeField_of_mem (.tail _ (.head _)) rfl]
    cases encoding <;> rfl
  have hcompressed : takeField { path, encoding }
      (.ofJson (ascii "compressed") (.bool compressed)) = .ok { path, encoding, compressed } :=
    takeField_of_mem (.tail _ (.tail _ (.head _))) rfl
  have hchunkBytes : takeField { path, encoding, compressed }
      (.ofJson (ascii "chunk_bytes") (.number { whole := chunkBytes })) =
        .ok { path, encoding, compressed, chunkBytes } := by
    rw [takeField_of_mem (.tail _ (.tail _ (.tail _ (.head _)))) rfl, hnatural _ _ hchunk,
      Except.map, UInt64.toNat_ofNat_of_lt' hchunk]
  have hmaxLineBytes : takeField { path, encoding, compressed, chunkBytes }
      (.ofJson (ascii "max_line_bytes") (.number { whole := maxLineBytes })) =
        .ok { path, encoding, compressed, chunkBytes, maxLineBytes } := by
    rw [takeField_of_mem (.tail _ (.tail _ (.tail _ (.tail _ (.head _))))) rfl, hnatural _ _ hmax,
      Except.map, UInt64.toNat_ofNat_of_lt' hmax]
  rw [listOf_render, takeFields_cons hpath, takeFields_cons hencoding,
    takeFields_cons hcompressed, takeFields_cons hchunkBytes, takeFields_cons hmaxLineBytes]
  rfl

/-- What is written for a configuration is read as this configuration, if its numbers have 64 bits,
and then checked. -/
theorem ofJson_render (config : Config) (hchunk : config.chunkBytes < 0x10000000000000000)
    (hmax : config.maxLineBytes < 0x10000000000000000) :
    @ofJson .grammar config.toJson.render = config.check :=
  let _ : JsonReader := .grammar
  ofJson_of_takeFields (takeFields_render config hchunk hmax)

end Config

end TextLines
