import EncoderFleet.Document.Basic
import EncoderFleet.Proofs.Json.ObjectForms
import EncoderFleet.Setup.Output

/-!
# The JSON forms of the configuration

Sources, profiles, flags, documents, save outcomes and failure reports are records, and each has its object forms:
`Source.IsForm` and its likes say which fields make one, and that a default may be missing. `Source.ofJson?_of_isForm`
and its likes say that each of them is read as the value; an object form of a document may have object forms in it.
Kinds, modes and platforms are names. `configuration_survives_json` puts all of this together with what is read of
texts.
-/

namespace EncoderFleet

open Json (Integral Rearranges Survives SurvivesRearranging)

/-! ## Names -/

namespace SourceKind

theorem ofJson?_toJson (k : SourceKind) : ofJson? k.toJson = some k := by cases k <;> decide

@[simp] theorem integral_toJson (k : SourceKind) : Integral k.toJson := Json.integral_text k.name

end SourceKind

namespace OutputMode

theorem ofJson?_toJson (m : OutputMode) : ofJson? m.toJson = some m := by cases m <;> decide

theorem integral_toJson (m : OutputMode) : Integral m.toJson := Json.integral_text m.name

end OutputMode

namespace Platform

theorem ofJson?_toJson (p : Platform) : ofJson? p.toJson = some p := by cases p <;> decide

theorem integral_toJson (p : Platform) : Integral p.toJson := Json.integral_text p.name

end Platform

/-! ## Sources -/

namespace Source

/-- A source as a record. -/
def record (s : Source) : List (String × Json) :=
  names.zip [.text s.id, s.kind.toJson, .text s.locator, .text s.name, .bool s.enabled, .option .text s.inputOverride]

/-- The fields that may be missing from a source, with what they then are. -/
def defaults : List (String × Json) := [("name", .text ""), ("enabled", .bool true), ("input_override", .null)]

/-- The fields make an object form of the source. -/
def IsForm (s : Source) (fields : List (String × Json)) : Prop := Rearranges defaults s.record fields

theorem ofJson?_of_isForm {s : Source} {fields : List (String × Json)} (h : s.IsForm fields) :
    ofJson? (.record fields) = some s := by
  obtain ⟨given, hgiven, hall⟩ := Json.slots_of_rearranges 3 (by decide) (show _ = names from rfl) h
  obtain _ | ⟨hid, _ | ⟨hkind, _ | ⟨hlocator, _ | ⟨hname, _ | ⟨henabled, _ | ⟨hoverride, _ | _⟩⟩⟩⟩⟩⟩ := hall
  have hid := hid.required (by simp [defaults]) (show Json.text? _ = some s.id from rfl)
  have hkind := hkind.required (by simp [defaults]) (SourceKind.ofJson?_toJson s.kind)
  have hlocator := hlocator.required (by simp [defaults]) (show Json.text? _ = some s.locator from rfl)
  have hname := hname.withDefault (d := "") (by simp [defaults, Json.text, Json.text?])
    (show Json.text? _ = some s.name from rfl)
  have henabled := henabled.withDefault (d := true) (by simp [defaults, Json.bool?])
    (show Json.bool? _ = some s.enabled from rfl)
  have hoverride := hoverride.nullable (by simp [defaults]) (Json.nullable_text s.inputOverride)
  simp only [ofJson?, hgiven, Option.bind_eq_bind, Option.bind_some, hid, hkind, hlocator, hname, henabled, hoverride]

theorem ofJson?_toJson (s : Source) : ofJson? s.toJson = some s := ofJson?_of_isForm (.refl defaults s.record)

@[simp] theorem integral_toJson (s : Source) : Integral s.toJson := Json.integral_record (by simp [names])

end Source

/-! ## Profiles -/

namespace Profile

/-- A profile as a record. -/
def record (p : Profile) : List (String × Json) := names.zip [.text p.name, .text p.args, .text p.note]

/-- The field that may be missing from a profile, with what it then is. -/
def defaults : List (String × Json) := [("note", .text "")]

/-- The fields make an object form of the profile. -/
def IsForm (p : Profile) (fields : List (String × Json)) : Prop := Rearranges defaults p.record fields

theorem ofJson?_of_isForm {p : Profile} {fields : List (String × Json)} (h : p.IsForm fields) :
    ofJson? (.record fields) = some p := by
  obtain ⟨given, hgiven, hall⟩ := Json.slots_of_rearranges 2 (by decide) (show _ = names from rfl) h
  obtain _ | ⟨hname, _ | ⟨hargs, _ | ⟨hnote, _ | _⟩⟩⟩ := hall
  have hname := hname.required (by simp [defaults]) (show Json.text? _ = some p.name from rfl)
  have hargs := hargs.required (by simp [defaults]) (show Json.text? _ = some p.args from rfl)
  have hnote := hnote.withDefault (d := "") (by simp [defaults, Json.text, Json.text?])
    (show Json.text? _ = some p.note from rfl)
  simp only [ofJson?, hgiven, Option.bind_eq_bind, Option.bind_some, hname, hargs, hnote]

theorem ofJson?_toJson (p : Profile) : ofJson? p.toJson = some p := ofJson?_of_isForm (.refl defaults p.record)

@[simp] theorem integral_toJson (p : Profile) : Integral p.toJson := Json.integral_record (by simp [names])

end Profile

/-! ## Flags -/

namespace OutputFlags

/-- The fields make an object form of the flags; none of them may be missing. -/
def IsForm (f : OutputFlags) (fields : List (String × Json)) : Prop := Rearranges [] f.fields fields

theorem word?_toNat (w : UInt32) : word? (.nat w.toNat) = some w := by
  have hlt : w.toNat < UInt32.size := w.toNat_lt_size
  simp [word?, Json.nat, Json.natBelow?, hlt]

theorem ofJson?_of_isForm {f : OutputFlags} {fields : List (String × Json)} (h : f.IsForm fields) :
    ofJson? (.record fields) = some f := by
  obtain ⟨given, hgiven, hall⟩ := Json.slots_of_rearranges 6 (by decide) (show _ = names from rfl) h
  obtain _ | ⟨hhls, _ | ⟨hmjpeg, _ | ⟨hflv, _ | ⟨hpassthrough, _ | ⟨hfps, _ | ⟨hsize, _ | _⟩⟩⟩⟩⟩⟩ := hall
  have hhls := hhls.required (by simp) (show Json.bool? _ = some f.hls from rfl)
  have hmjpeg := hmjpeg.required (by simp) (show Json.bool? _ = some f.mjpeg from rfl)
  have hflv := hflv.required (by simp) (show Json.bool? _ = some f.flv from rfl)
  have hpassthrough := hpassthrough.required (by simp) (show Json.bool? _ = some f.mjpegPassthrough from rfl)
  have hfps := hfps.required (by simp) (word?_toNat f.mjpegFps)
  have hsize := hsize.required (by simp) (show Json.text? _ = some f.mjpegSize from rfl)
  simp only [ofJson?, hgiven, Option.bind_eq_bind, Option.bind_some, hhls, hmjpeg, hflv, hpassthrough, hfps, hsize]

theorem ofJson?_toJson (f : OutputFlags) : ofJson? f.toJson = some f := ofJson?_of_isForm (.refl [] f.fields)

theorem integral_toJson (f : OutputFlags) : Integral f.toJson := Json.integral_record (by simp [fields, names])

end OutputFlags

/-! ## Documents -/

namespace Document

/-- A document as a record, with its sources and profiles in some JSON form. -/
def record (sources profiles : List Json) (activeProfile : String) : List (String × Json) :=
  names.zip [.array sources, .array profiles, .text activeProfile]

/-- The sections that may be missing from a document, with what they then are. -/
def defaults : List (String × Json) :=
  [("sources", .array []), ("profiles", .array []), ("active_profile", .text Profile.auto)]

/-- The fields make an object form of the document, in which each source and each profile has an object form of its own.
-/
def IsForm (d : Document) (fields : List (String × Json)) : Prop :=
  ∃ sources profiles : List (List (String × Json)),
    List.Forall₂ Source.IsForm d.sources sources ∧ List.Forall₂ Profile.IsForm d.profiles profiles ∧
    Rearranges defaults (record (sources.map .record) (profiles.map .record) d.activeProfile) fields

/-- A list of values, each in one of its object forms. -/
theorem listOf_of_forms {α : Type} {read : Json → Option α} {isForm : α → List (String × Json) → Prop}
    (hr : ∀ {a fields}, isForm a fields → read (.record fields) = some a) {as : List α}
    {forms : List (List (String × Json))} (h : List.Forall₂ isForm as forms) :
    Json.listOf read (.array (forms.map .record)) = some as :=
  Json.listOf_array (List.forall₂_map_right_iff.mpr (h.imp fun _ _ => hr))

theorem ofJson?_of_isForm {d : Document} {fields : List (String × Json)} (h : d.IsForm fields) :
    ofJson? (.record fields) = some d := by
  obtain ⟨sources, profiles, hs, hp, h⟩ := h
  obtain ⟨given, hgiven, hall⟩ := Json.slots_of_rearranges 0 (by decide) (show _ = names from rfl) h
  obtain _ | ⟨hsources, _ | ⟨hprofiles, _ | ⟨hactive, _ | _⟩⟩⟩ := hall
  have hsources := hsources.withDefault (d := []) (by simp [defaults, Json.listOf, Json.items?])
    (listOf_of_forms Source.ofJson?_of_isForm hs)
  have hprofiles := hprofiles.withDefault (d := []) (by simp [defaults, Json.listOf, Json.items?])
    (listOf_of_forms Profile.ofJson?_of_isForm hp)
  have hactive := hactive.withDefault (d := Profile.auto) (by simp [defaults, Json.text, Json.text?])
    (show Json.text? _ = some d.activeProfile from rfl)
  simp only [ofJson?, hgiven, Option.bind_eq_bind, Option.bind_some, hsources, hprofiles, hactive]

/-- What is written for a document is an object form of it. -/
theorem isForm_self (d : Document) :
    d.IsForm (record (d.sources.map Source.toJson) (d.profiles.map Profile.toJson) d.activeProfile) := by
  refine ⟨d.sources.map Source.record, d.profiles.map Profile.record, ?_, ?_, ?_⟩
  · exact List.forall₂_map_right_iff.mpr (List.forall₂_same.mpr fun s _ => .refl Source.defaults s.record)
  · exact List.forall₂_map_right_iff.mpr (List.forall₂_same.mpr fun p _ => .refl Profile.defaults p.record)
  · rw [List.map_map, List.map_map]
    exact .refl defaults _

theorem ofJson?_toJson (d : Document) : ofJson? d.toJson = some d := ofJson?_of_isForm d.isForm_self

theorem integral_toJson (d : Document) : Integral d.toJson := by
  have hsources : Integral (.array (d.sources.map Source.toJson)) := .array (by simp)
  have hprofiles : Integral (.array (d.profiles.map Profile.toJson)) := .array (by simp)
  exact Json.integral_record (by simp [names, hsources, hprofiles])

/-- A document is read back from its text. -/
theorem parse_render (d : Document) : parse d.render = .ok d := by
  rw [parse, render, Json.renderPretty, String.toList_ofList, Json.parse?_pretty d.integral_toJson, Option.bind_some,
    ofJson?_toJson]

end Document

/-! ## Outcomes and reports -/

namespace SaveOutcome

/-- An outcome as a record. -/
def record (s : SaveOutcome) : List (String × Json) :=
  [("ok", .bool s.ok), ("path", .option .text s.path), ("error", .option .text s.error)]

/-- The fields that may be missing from an outcome, with what they then are. -/
def defaults : List (String × Json) := [("path", .null), ("error", .null)]

/-- The fields make an object form of the outcome. -/
def IsForm (s : SaveOutcome) (fields : List (String × Json)) : Prop := Rearranges defaults s.record fields

theorem ofJson?_of_isForm {s : SaveOutcome} {fields : List (String × Json)} (h : s.IsForm fields) :
    ofJson? (.record fields) = some s := by
  obtain ⟨given, hgiven, hall⟩ := Json.slots_of_rearranges 3 (by decide) (show _ = ["ok", "path", "error"] from rfl) h
  obtain _ | ⟨hok, _ | ⟨hpath, _ | ⟨herror, _ | _⟩⟩⟩ := hall
  have hok := hok.required (by simp [defaults]) (show Json.bool? _ = some s.ok from rfl)
  have hpath := hpath.nullable (by simp [defaults]) (Json.nullable_text s.path)
  have herror := herror.nullable (by simp [defaults]) (Json.nullable_text s.error)
  simp only [ofJson?, hgiven, Option.bind_eq_bind, Option.bind_some, hok, hpath, herror]

theorem ofJson?_toJson (s : SaveOutcome) : ofJson? s.toJson = some s := ofJson?_of_isForm (.refl defaults s.record)

theorem integral_toJson (s : SaveOutcome) : Integral s.toJson := Json.integral_record (by simp)

end SaveOutcome

namespace FailureReport

/-- A report as a record. -/
def record (r : FailureReport) : List (String × Json) := [("code", .text r.code), ("message", .text r.message)]

/-- The fields make an object form of the report; none of them may be missing. -/
def IsForm (r : FailureReport) (fields : List (String × Json)) : Prop := Rearranges [] r.record fields

theorem ofJson?_of_isForm {r : FailureReport} {fields : List (String × Json)} (h : r.IsForm fields) :
    ofJson? (.record fields) = some r := by
  obtain ⟨given, hgiven, hall⟩ := Json.slots_of_rearranges 2 (by decide) (show _ = ["code", "message"] from rfl) h
  obtain _ | ⟨hcode, _ | ⟨hmessage, _ | _⟩⟩ := hall
  have hcode := hcode.required (by simp) (show Json.text? _ = some r.code from rfl)
  have hmessage := hmessage.required (by simp) (show Json.text? _ = some r.message from rfl)
  simp only [ofJson?, hgiven, Option.bind_eq_bind, Option.bind_some, hcode, hmessage]

theorem ofJson?_toJson (r : FailureReport) : ofJson? r.toJson = some r := ofJson?_of_isForm (.refl [] r.record)

theorem integral_toJson (r : FailureReport) : Integral r.toJson := Json.integral_record (by simp)

end FailureReport

/-! ## The law of the JSON forms -/

/-- Every value of the configuration is read back from its text in either layout; and of records every text of every
object form is read as the record: its fields in any order, fields that have their default left out or not, and fields of
other names among them, whatever their values. -/
theorem configuration_survives_json :
    (Survives SourceKind.toJson SourceKind.ofJson? ∧ Survives OutputMode.toJson OutputMode.ofJson? ∧
      Survives Platform.toJson Platform.ofJson?) ∧
    (Survives Source.toJson Source.ofJson? ∧ SurvivesRearranging Source.IsForm Source.ofJson?) ∧
    (Survives Profile.toJson Profile.ofJson? ∧ SurvivesRearranging Profile.IsForm Profile.ofJson?) ∧
    (Survives OutputFlags.toJson OutputFlags.ofJson? ∧ SurvivesRearranging OutputFlags.IsForm OutputFlags.ofJson?) ∧
    (Survives Document.toJson Document.ofJson? ∧ SurvivesRearranging Document.IsForm Document.ofJson?) ∧
    (Survives SaveOutcome.toJson SaveOutcome.ofJson? ∧ SurvivesRearranging SaveOutcome.IsForm SaveOutcome.ofJson?) ∧
    (Survives FailureReport.toJson FailureReport.ofJson? ∧
      SurvivesRearranging FailureReport.IsForm FailureReport.ofJson?) := by
  refine ⟨⟨?_, ?_, ?_⟩, ⟨?_, ?_⟩, ⟨?_, ?_⟩, ⟨?_, ?_⟩, ⟨?_, ?_⟩, ⟨?_, ?_⟩, ?_, ?_⟩
  · exact Json.survives SourceKind.integral_toJson SourceKind.ofJson?_toJson
  · exact Json.survives OutputMode.integral_toJson OutputMode.ofJson?_toJson
  · exact Json.survives Platform.integral_toJson Platform.ofJson?_toJson
  · exact Json.survives Source.integral_toJson Source.ofJson?_toJson
  · exact Json.survivesRearranging fun _ _ => Source.ofJson?_of_isForm
  · exact Json.survives Profile.integral_toJson Profile.ofJson?_toJson
  · exact Json.survivesRearranging fun _ _ => Profile.ofJson?_of_isForm
  · exact Json.survives OutputFlags.integral_toJson OutputFlags.ofJson?_toJson
  · exact Json.survivesRearranging fun _ _ => OutputFlags.ofJson?_of_isForm
  · exact Json.survives Document.integral_toJson Document.ofJson?_toJson
  · exact Json.survivesRearranging fun _ _ => Document.ofJson?_of_isForm
  · exact Json.survives SaveOutcome.integral_toJson SaveOutcome.ofJson?_toJson
  · exact Json.survivesRearranging fun _ _ => SaveOutcome.ofJson?_of_isForm
  · exact Json.survives FailureReport.integral_toJson FailureReport.ofJson?_toJson
  · exact Json.survivesRearranging fun _ _ => FailureReport.ofJson?_of_isForm

/-- A camera is read from a text that gives its fields in another order, leaves its defaults out, and has among them a
field that no source has, with a number that is written with a fraction and an exponent. -/
theorem rearranged_camera_survives :
    let camera : Source := { id := "cam", kind := .url, locator := "" }
    let zoom : Json := .array [.number { negative := true, whole := 1, tail := ['.', '5', 'e', '3'] }, .null]
    let fields : List (String × Json) :=
      [("kind", .text "url"), ("zoom", zoom), ("locator", .text ""), ("id", .text "cam")]
    let text := "\x7b \"kind\":\"url\", \"zoom\":[-1.5e3,null], \"locator\":\"\", \"id\":\"cam\" \x7d"
    camera.IsForm fields ∧ Json.WritesObject text.toList fields ∧ Json.decode? Source.ofJson? text = some camera := by
  intro camera zoom fields text
  have hform : camera.IsForm fields := by
    refine ⟨[("id", .text "cam"), ("kind", .text "url"), ("locator", .text "")], [("zoom", zoom)], ?_, ?_, ?_, ?_⟩
    · exact (List.perm_append_singleton ("id", .text "cam")
        [("kind", .text "url"), ("zoom", zoom), ("locator", .text "")]).trans (.cons _ (.cons _ (.swap ..)))
    · exact List.sublist_append_left [("id", .text "cam"), ("kind", .text "url"), ("locator", .text "")]
        Source.defaults
    · intro f hf hmissing
      -- What is missing of the record stands behind the three fields that are given.
      exact (List.mem_append.mp hf).resolve_left hmissing
    · simp [Source.record, Source.names]
  have hspace : Json.Blank [' '] := by simp [Json.Blank, Json.isSpace]
  let zoomText : List Char := ['[', '-', '1', '.', '5', 'e', '3', ',', 'n', 'u', 'l', 'l', ']']
  have hzoom : Json.parse? zoomText = some zoom := rfl
  let field (name : String) (w : List Char) : List Char := [' '] ++ Json.quote (some name) ++ [] ++ ':' :: w
  have hfield : ∀ {name w v}, Json.parse? w = some v → Json.WritesField (field name w) (some name, v) :=
    fun hw => .intro hspace Json.blank_nil hw
  have hchars : text.toList = [] ++ Json.enclosed '\x7b' ([' '] ++ ['\x7d'])
      [field "kind" (Json.quote (some "url")), field "zoom" zoomText, field "locator" (Json.quote (some "")),
        field "id" (Json.quote (some "cam"))] ++ [] := by
    decide +kernel
  have htext : Json.WritesObject text.toList fields := by
    rw [hchars]
    refine .intro Json.blank_nil hspace Json.blank_nil (.cons ?_ (.cons ?_ (.cons ?_ (.cons ?_ .nil))))
    · exact hfield (Json.parse?_quote (some "url"))
    · exact hfield hzoom
    · exact hfield (Json.parse?_quote (some ""))
    · exact hfield (Json.parse?_quote (some "cam"))
  exact ⟨hform, htext, configuration_survives_json.2.1.2 camera fields text hform htext⟩

end EncoderFleet
