import SolarTakeoff.Proofs.Json.Quoting
import SolarTakeoff.Proofs.Line.Bounds
import SolarTakeoff.Proofs.Records.RoundTrip
import Mathlib.Tactic

/-!
# Records read back from JSON

Written as JSON, a record is read back whenever its strings and its own numbers
are, by any reader that takes whole documents back.  No record nests deeper than
four levels, so the limit of a reader is never in the way.
-/

namespace SolarTakeoff

open Json

/-- The printer writes these numbers so that the reader takes them back. -/
def Json.Printer.ReadsNumbers (printer : Printer) (json? : String → Option Datum)
    (numbers : List Binary64) : Prop :=
  ∀ number ∈ numbers, printer.ReadsBack json? (.number number)

/-- The text of a record is read back when its numbers are finite and read back. -/
def Codec.TextReadsBack {α : Type} (codec : Codec α) (json? : String → Option Datum)
    (printer : Printer) : Prop :=
  ∀ value, AllFinite (codec.floats value) → printer.ReadsNumbers json? (codec.floats value) →
    (json? ((codec.toDatum value).json printer)).bind codec.ofDatum? = some value

/-- Every record can be written with so many levels to spare. -/
def Codec.Writes {α : Type} (codec : Codec α) (json? : String → Option Datum)
    (printer : Printer) (room : ℕ) : Prop :=
  ∀ value, printer.ReadsNumbers json? (codec.floats value) →
    Writable json? printer room (codec.toDatum value)

theorem Codec.ReadsBack.text {α : Type} {codec : Codec α} {json? : String → Option Datum}
    {printer : Printer} {room : ℕ} (h : codec.ReadsBack) (htrips : printer.RoundTrips json?)
    (hwrites : codec.Writes json? printer room) (hroom : room ≤ nestingLimit) :
    codec.TextReadsBack json? printer := by
  intro value hfinite hnumbers
  have htext : printer.ReadsBack json? (codec.toDatum value) :=
    htrips.documents (hwrites value hnumbers) hroom
  rw [htext, Option.bind_some]
  exact h value hfinite

/-! ## Fields -/

section Fields

variable {json? : String → Option Datum} {printer : Printer} {room : ℕ}

theorem Json.writable_ofOption {α : Type} {toDatum : α → Datum} {option : Option α}
    (h : ∀ value ∈ option, Writable json? printer room (toDatum value)) :
    Writable json? printer room (Datum.ofOption toDatum option) := by
  cases option with
  | none => exact .null
  | some value => exact h value rfl

theorem Json.writable_ofList {α : Type} {toDatum : α → Datum} {items : List α}
    (h : ∀ item ∈ items, Writable json? printer room (toDatum item)) :
    Writable json? printer (room + 1) (Datum.ofList toDatum items) := by
  apply Writable.array
  intro datum hdatum
  obtain ⟨item, hitem, rfl⟩ := List.mem_map.mp hdatum
  exact h item hitem

theorem Json.writable_ofBinary64 {number : Binary64}
    (h : printer.ReadsBack json? (.number number)) :
    Writable json? printer room (Datum.ofBinary64 number) := by
  unfold Datum.ofBinary64
  split
  · exact .number h
  · exact .null

theorem Json.writable_ofBinary64s {option : Option Binary64}
    (h : printer.ReadsNumbers json? option.toList) :
    Writable json? printer room (Datum.ofOption Datum.ofBinary64 option) :=
  writable_ofOption fun number hnumber => writable_ofBinary64 (h number (by simpa using hnumber))

@[simp] theorem Json.writable_bool (value : Bool) : Writable json? printer room (.bool value) :=
  .bool

@[simp] theorem Json.writable_bools (option : Option Bool) :
    Writable json? printer room (Datum.ofOption .bool option) :=
  writable_ofOption fun _ _ => .bool

@[simp] theorem Json.writable_uint32 (value : UInt32) :
    Writable json? printer room (.integer value.toNat) := by
  have hlt := value.toNat_lt
  exact .integer (by omega) (by omega)

@[simp] theorem Json.writable_uint32s (option : Option UInt32) :
    Writable json? printer room (Datum.ofOption (fun value => .integer value.toNat) option) :=
  writable_ofOption fun value _ => writable_uint32 value

@[simp] theorem Json.writable_int32 (value : Int32) :
    Writable json? printer room (.integer value.toInt) := by
  have hleast := value.le_toInt
  have hlt := value.toInt_lt
  exact .integer (by omega) (by omega)

@[simp] theorem Json.writable_int64 (value : Int64) :
    Writable json? printer room (.integer value.toInt) := by
  have hleast := value.le_toInt
  have hlt := value.toInt_lt
  exact .integer (by omega) (by omega)

@[simp] theorem Money.writable_toDatum (amount : Money) :
    Writable json? printer room amount.toDatum :=
  writable_int64 amount.cents

@[simp] theorem TaxRate.writable_toDatum (rate : TaxRate) :
    Writable json? printer room rate.toDatum :=
  writable_uint32 rate.bps

theorem Money.writes : Money.codec.Writes json? printer room :=
  fun amount _ => amount.writable_toDatum

theorem TaxRate.writes : TaxRate.codec.Writes json? printer room :=
  fun rate _ => rate.writable_toDatum

end Fields

/-! ## Records -/

section Records

variable {json? : String → Option Datum} {printer : Printer} {room : ℕ}
  (hstring : ∀ text, printer.ReadsBack json? (.string text))

include hstring

theorem Json.writable_string (text : String) : Writable json? printer room (.string text) :=
  .string (hstring text)

theorem Json.writable_strings (option : Option String) :
    Writable json? printer room (Datum.ofOption .string option) :=
  writable_ofOption fun text _ => .string (hstring text)

theorem Json.writable_record {fields : List (String × Datum)}
    (h : ∀ field ∈ fields, Writable json? printer room field.2) :
    Writable json? printer (room + 1) (.record fields) :=
  .record (fun field _ => hstring field.1) h

theorem Job.writes : Job.codec.Writes json? printer (room + 1) := by
  intro job h
  obtain ⟨hsize, hcapacity⟩ := List.forall_mem_cons.mp h
  apply writable_record hstring
  simp [writable_strings hstring, writable_ofBinary64 hsize, writable_ofBinary64s hcapacity]

theorem Json.writable_categories (categories : Option (List String)) :
    Writable json? printer (room + 1) (Datum.ofOption (Datum.ofList .string) categories) :=
  writable_ofOption fun _ _ => writable_ofList fun text _ => writable_string hstring text

theorem Selection.writes : Selection.codec.Writes json? printer (room + 2) := by
  intro selection _
  apply writable_record hstring
  simp [writable_categories hstring]

theorem CostSummary.writes : CostSummary.codec.Writes json? printer (room + 1) := by
  intro summary _
  apply writable_record hstring
  simp

theorem Strategy.writes : Strategy.codec.Writes json? printer (room + 1) := by
  intro strategy h
  cases strategy with
  | fixed | formula expression | unrecognized tag =>
      apply writable_record hstring
      simp [writable_string hstring]
  | perPanel multiplier | perKilowatt multiplier | perBattery multiplier =>
      have hmultiplier := (List.forall_mem_cons.mp h).1
      apply writable_record hstring
      simp [writable_string hstring, writable_ofBinary64 hmultiplier]

theorem Offer.writable_fields {offer : Offer} (h : printer.ReadsNumbers json? offer.floats) :
    ∀ field ∈ offer.fields, Writable json? printer room field.2 := by
  simp [Offer.fields, writable_strings hstring, writable_ofBinary64s h]

theorem SupplierProduct.writable_fields {product : SupplierProduct}
    (h : printer.ReadsNumbers json? product.floats) :
    ∀ field ∈ product.fields, Writable json? printer room field.2 := by
  have hoffer : ∀ field ∈ product.offer.fields, Writable json? printer room field.2 :=
    Offer.writable_fields hstring h
  unfold SupplierProduct.fields
  rw [List.forall_mem_append]
  exact ⟨by simp [writable_string hstring], hoffer⟩

theorem ProductSource.writable_toDatum {source : ProductSource}
    (h : printer.ReadsNumbers json? source.floats) :
    Writable json? printer (room + 1) source.toDatum := by
  cases source with
  | direct offer =>
      apply writable_record hstring
      rw [List.forall_mem_cons]
      exact ⟨writable_string hstring _, Offer.writable_fields hstring h⟩
  | supplier product =>
      apply writable_record hstring
      rw [List.forall_mem_cons]
      exact ⟨writable_string hstring _, SupplierProduct.writable_fields hstring h⟩

theorem Candidate.writes : Candidate.codec.Writes json? printer (room + 2) := by
  intro candidate h
  have hsource : Writable json? printer (room + 1) candidate.source.toDatum :=
    ProductSource.writable_toDatum hstring h
  apply writable_record hstring
  simp [hsource]

theorem Product.writes : Product.codec.Writes json? printer (room + 1) := by
  intro product h
  have hoffer : ∀ field ∈ product.offer.fields, Writable json? printer room field.2 :=
    Offer.writable_fields hstring h
  apply writable_record hstring
  rw [List.forall_mem_append]
  exact ⟨by simp [writable_strings hstring], hoffer⟩

theorem Line.writes : Line.codec.Writes json? printer (room + 1) := by
  intro line h
  obtain ⟨hquantity, hcost⟩ := List.forall_mem_cons.mp h
  apply writable_record hstring
  simp [writable_string hstring, writable_strings hstring, writable_ofBinary64 hquantity,
    writable_ofBinary64s hcost]

theorem Rule.writes : Rule.codec.Writes json? printer (room + 4) := by
  intro rule h
  obtain ⟨hbase, h⟩ := List.forall_mem_cons.mp h
  obtain ⟨hminimum, h⟩ := List.forall_mem_cons.mp h
  obtain ⟨hmaximum, h⟩ := List.forall_mem_append.mp h
  obtain ⟨hstrategy, hcandidates⟩ := List.forall_mem_append.mp h
  have hstrategy : Writable json? printer (room + 3) rule.strategy.toDatum :=
    Strategy.writes hstring rule.strategy hstrategy
  have hcandidates : Writable json? printer (room + 3)
      (Datum.ofList Candidate.toDatum rule.candidates) :=
    writable_ofList fun candidate hmem =>
      Candidate.writes hstring candidate (forall_mem_flatMap.mp hcandidates candidate hmem)
  apply writable_record hstring
  simp [writable_string hstring, writable_strings hstring, writable_ofBinary64 hbase,
    writable_ofBinary64 hminimum, writable_ofBinary64s hmaximum, hstrategy, hcandidates]

theorem CatalogCandidate.writable_toDatum {entry : CatalogCandidate}
    (h : printer.ReadsNumbers json? entry.floats) :
    Writable json? printer (room + 2) entry.toDatum := by
  obtain ⟨hoffer, hproduct⟩ := List.forall_mem_append.mp h
  have hoffer : ∀ field ∈ entry.offer.fields, Writable json? printer (room + 1) field.2 :=
    Offer.writable_fields hstring hoffer
  have hproduct : Writable json? printer (room + 1)
      (Datum.ofOption (fun product => .record product.fields) entry.supplierProduct) := by
    apply writable_ofOption
    intro product hmem
    have hnumbers := forall_mem_flatMap.mp hproduct product (Option.mem_toList.mpr hmem)
    exact writable_record hstring (SupplierProduct.writable_fields hstring hnumbers)
  apply writable_record hstring
  rw [List.forall_mem_append, List.forall_mem_append]
  exact ⟨⟨by simp, hoffer⟩, by simp [hproduct]⟩

theorem CatalogEntry.writes : CatalogEntry.codec.Writes json? printer (room + 4) := by
  intro entry h
  obtain ⟨hmultiplier, h⟩ := List.forall_mem_cons.mp h
  obtain ⟨hbase, h⟩ := List.forall_mem_cons.mp h
  obtain ⟨hminimum, h⟩ := List.forall_mem_cons.mp h
  obtain ⟨hmaximum, hproducts⟩ := List.forall_mem_append.mp h
  have hproducts : Writable json? printer (room + 3)
      (Datum.ofList CatalogCandidate.toDatum entry.products) :=
    writable_ofList fun product hmem =>
      CatalogCandidate.writable_toDatum hstring (forall_mem_flatMap.mp hproducts product hmem)
  apply writable_record hstring
  simp [writable_string hstring, writable_strings hstring, writable_ofBinary64 hmultiplier,
    writable_ofBinary64 hbase, writable_ofBinary64 hminimum, writable_ofBinary64s hmaximum,
    hproducts]

theorem Config.writes : Config.codec.Writes json? printer (room + 3) := by
  intro config _
  have hcatalog : Writable json? printer (room + 2)
      (.record [("path", Datum.ofOption .string config.catalogPath)]) := by
    apply writable_record hstring
    simp [writable_strings hstring]
  have hcalculation : Writable json? printer (room + 2)
      (.record [("include_optional", .bool config.includeOptional),
        ("categories", Datum.ofOption (Datum.ofList .string) config.categories)]) := by
    apply writable_record hstring
    simp [writable_categories hstring]
  have htax : Writable json? printer (room + 2)
      (.record [("rate_bps", config.taxRate.toDatum)]) := by
    apply writable_record hstring
    simp
  apply writable_record hstring
  simp [hcatalog, hcalculation, htax]

end Records

/-- What is written of a job, a rule, a catalog entry, a selection, a line, a
summary or a configuration, or of a part of them, is read back from its text by
every reader that takes documents back, when the numbers in it are.  The reader
of this library is one if it takes back what is printed of strings. -/
theorem records_text_readsBack :
    (∀ (json? : String → Option Datum) (printer : Printer), printer.RoundTrips json? →
      Job.codec.TextReadsBack json? printer ∧ Strategy.codec.TextReadsBack json? printer ∧
        Candidate.codec.TextReadsBack json? printer ∧ Rule.codec.TextReadsBack json? printer ∧
        CatalogEntry.codec.TextReadsBack json? printer ∧
        Selection.codec.TextReadsBack json? printer ∧
        Product.codec.TextReadsBack json? printer ∧ Line.codec.TextReadsBack json? printer ∧
        CostSummary.codec.TextReadsBack json? printer ∧
        Money.codec.TextReadsBack json? printer ∧ TaxRate.codec.TextReadsBack json? printer ∧
        Config.codec.TextReadsBack json? printer) ∧
      ∀ printer : Printer, (∀ text, printer.ReadsBack Datum.ofJson? (.string text)) →
        printer.RoundTrips Datum.ofJson? := by
  refine ⟨?_, fun printer => Printer.roundTrips_ofJson?⟩
  intro json? printer htrips
  have hstring := htrips.strings
  have hroom : 4 ≤ nestingLimit := by decide
  refine ⟨?_, ?_, ?_, ?_, ?_, ?_, ?_, ?_, ?_, ?_, ?_, ?_⟩
  · exact Job.readsBack.text htrips (@Job.writes json? printer 3 hstring) hroom
  · exact Strategy.readsBack.text htrips (@Strategy.writes json? printer 3 hstring) hroom
  · exact Candidate.readsBack.text htrips (@Candidate.writes json? printer 2 hstring) hroom
  · exact Rule.readsBack.text htrips (@Rule.writes json? printer 0 hstring) hroom
  · exact CatalogEntry.readsBack.text htrips (@CatalogEntry.writes json? printer 0 hstring) hroom
  · exact Selection.readsBack.text htrips (@Selection.writes json? printer 2 hstring) hroom
  · exact Product.readsBack.text htrips (@Product.writes json? printer 3 hstring) hroom
  · exact Line.readsBack.text htrips (@Line.writes json? printer 3 hstring) hroom
  · exact CostSummary.readsBack.text htrips (@CostSummary.writes json? printer 3 hstring) hroom
  · exact Money.readsBack.text htrips (@Money.writes json? printer 4) hroom
  · exact TaxRate.readsBack.text htrips (@TaxRate.writes json? printer 4) hroom
  · exact Config.readsBack.text htrips (@Config.writes json? printer 1 hstring) hroom

/-- A clip for every two panels, of a price below a dollar. -/
def clipRule : Rule :=
  { crossedRule with
    strategy := .perPanel .half
    base := .zero
    minimum := .zero
    maximum := none
    candidates := [{
      isPrimary := true
      source := .supplier {
        id := "c-7"
        supplierId := "s-1"
        supplierName := "Clips \"R\" Us"
        offer := { unitCost := some (.ofNat 7 / .ofNat 20) } } }] }

theorem readsNumbers_clipRule :
    Printer.plain.ReadsNumbers Datum.ofJson? (Rule.codec.floats clipRule) := by
  have hzero : Printer.plain.ReadsBack Datum.ofJson? (.number .zero) :=
    readsBack_fraction (show Printer.plain.number .zero = ['0', '.', '0'] by decide +kernel)
      ⟨_, rfl, rfl, rfl⟩ rfl rfl (by decide) (by decide) (by decide +kernel)
  have hhalf : Printer.plain.ReadsBack Datum.ofJson? (.number .half) :=
    readsBack_fraction (show Printer.plain.number .half = ['0', '.', '5'] by decide +kernel)
      ⟨_, rfl, rfl, rfl⟩ rfl rfl (by decide) (by decide) (by decide +kernel)
  have hcost : Printer.plain.ReadsBack Datum.ofJson? (.number (.ofNat 7 / .ofNat 20)) :=
    readsBack_fraction
      (show Printer.plain.number (.ofNat 7 / .ofNat 20) = ['0', '.', '3', '5'] by decide +kernel)
      ⟨_, rfl, rfl, rfl⟩ rfl rfl (by decide) (by decide) (by decide +kernel)
  have hfloats : Rule.codec.floats clipRule = [.zero, .zero, .half, .ofNat 7 / .ofNat 20] := rfl
  rw [hfloats]
  simp [Printer.ReadsNumbers, hzero, hhalf, hcost]

theorem text_readsBack_clipRule :
    (∀ text, Printer.plain.ReadsBack Datum.ofJson? (.string text)) ∧
      Printer.plain.RoundTrips Datum.ofJson? ∧ AllFinite (Rule.codec.floats clipRule) ∧
      Printer.plain.ReadsNumbers Datum.ofJson? (Rule.codec.floats clipRule) ∧
      (Datum.ofJson? (clipRule.toDatum.json .plain)).bind Rule.ofDatum? = some clipRule := by
  have hfinite : AllFinite (Rule.codec.floats clipRule) := by
    unfold AllFinite
    decide +kernel
  obtain ⟨hrecords, hreader⟩ := records_text_readsBack
  have htrips := hreader .plain Printer.readsBack_plain_string
  obtain ⟨-, -, -, hrule, -⟩ := hrecords Datum.ofJson? .plain htrips
  exact ⟨Printer.readsBack_plain_string, htrips, hfinite, readsNumbers_clipRule,
    hrule clipRule hfinite readsNumbers_clipRule⟩

end SolarTakeoff
