import SolarTakeoff.Proofs.Records.Fields
import Mathlib.Tactic

/-!
# Records read back

Every record is read back from the datum it is written as, provided its numbers
are finite; others are written as null and lost.  Tagged records lose their tag
to the choice of the variant and keep the fields beside it.
-/

namespace SolarTakeoff

open Datum

/-- None of the numbers is infinite or not a number. -/
def AllFinite (numbers : List Binary64) : Prop :=
  ∀ number ∈ numbers, number.isFinite = true

/-- How a record is written and read, and the numbers it has. -/
structure Codec (α : Type) where
  floats : α → List Binary64
  toDatum : α → Datum
  ofDatum? : Datum → Option α

/-- Every record of finite numbers is read back. -/
def Codec.ReadsBack {α : Type} (codec : Codec α) : Prop :=
  ∀ value, AllFinite (codec.floats value) → codec.ofDatum? (codec.toDatum value) = some value

theorem forall_mem_flatMap {α β : Type} {items : List α} {parts : α → List β} {holds : β → Prop} :
    (∀ part ∈ items.flatMap parts, holds part) ↔ ∀ item ∈ items, ∀ part ∈ parts item, holds part := by
  constructor
  · intro h item hitem part hpart
    exact h part (List.mem_flatMap.mpr ⟨item, hitem, hpart⟩)
  · intro h part hpart
    obtain ⟨item, hitem, hmem⟩ := List.mem_flatMap.mp hpart
    exact h item hitem part hmem

/-! ## Jobs, selections and amounts -/

def Job.codec : Codec Job where
  floats job := job.systemSize :: job.batteryCapacity.toList
  toDatum := toDatum
  ofDatum? := ofDatum?

theorem Job.readsBack : Job.codec.ReadsBack := by
  intro job h
  obtain ⟨hsize, hcapacity⟩ := List.forall_mem_cons.mp h
  change Job.ofDatum? job.toDatum = some job
  unfold Job.ofDatum? Job.toDatum
  refine record?_bind (by decide) rfl fun record hfields => ?_
  simp only [List.forall_mem_cons] at hfields
  simp [Record.required, Record.lenient, Record.defaulted, hfields, binary64?_ofBinary64 hsize,
    nullable?_binary64 hcapacity]

def Selection.codec : Codec Selection where
  floats _ := []
  toDatum := toDatum
  ofDatum? := ofDatum?

theorem Selection.readsBack : Selection.codec.ReadsBack := by
  intro selection _
  change Selection.ofDatum? selection.toDatum = some selection
  unfold Selection.ofDatum? Selection.toDatum
  refine record?_bind (by decide) rfl fun record hfields => ?_
  simp only [List.forall_mem_cons] at hfields
  simp [Record.lenient, Record.defaulted, hfields]

def Money.codec : Codec Money where
  floats _ := []
  toDatum := toDatum
  ofDatum? := ofDatum?

theorem Money.readsBack : Money.codec.ReadsBack := by
  intro amount _
  simp [codec, Money.ofDatum?, Money.toDatum]

def TaxRate.codec : Codec TaxRate where
  floats _ := []
  toDatum := toDatum
  ofDatum? := ofDatum?

theorem TaxRate.readsBack : TaxRate.codec.ReadsBack := by
  intro rate _
  simp [codec, TaxRate.ofDatum?, TaxRate.toDatum]

def CostSummary.codec : Codec CostSummary where
  floats _ := []
  toDatum := toDatum
  ofDatum? := ofDatum?

theorem CostSummary.readsBack : CostSummary.codec.ReadsBack := by
  intro summary _
  have hmoney : ∀ amount, Money.ofDatum? amount.toDatum = some amount :=
    fun amount => Money.readsBack amount (by simp [AllFinite, Money.codec])
  have hrate : TaxRate.ofDatum? summary.taxRate.toDatum = some summary.taxRate :=
    TaxRate.readsBack summary.taxRate (by simp [AllFinite, TaxRate.codec])
  change CostSummary.ofDatum? summary.toDatum = some summary
  unfold CostSummary.ofDatum? CostSummary.toDatum
  refine record?_bind (by decide) rfl fun record hfields => ?_
  simp only [List.forall_mem_cons] at hfields
  simp [Record.required, hfields, hmoney, hrate]

/-! ## Strategies -/

def Strategy.floats : Strategy → List Binary64
  | .perPanel multiplier | .perKilowatt multiplier | .perBattery multiplier => [multiplier]
  | .fixed | .formula _ | .unrecognized _ => []

def Strategy.codec : Codec Strategy where
  floats := floats
  toDatum := toDatum
  ofDatum? := ofDatum?

theorem Datum.variant?_tagged {key tag : String} {fields : List (String × Datum)}
    (hreadable : fieldsAreReadable fields = true) (hkey : ∀ field ∈ fields, field.1 ≠ key) :
    (Datum.record ((key, .string tag) :: fields)).variant? key = some (tag, .record fields) := by
  have hnone : fields.filter (·.1 == key) = [] := by
    rw [List.filter_eq_nil_iff]
    intro field hfield
    simpa using hkey field hfield
  have hall : fields.filter (·.1 != key) = fields := by
    rw [List.filter_eq_self]
    intro field hfield
    simpa using hkey field hfield
  simp [variant?, isReadable, fieldsAreReadable, hreadable, hnone, hall]

@[simp] theorem Datum.isReadable_ofBinary64 (value : Binary64) :
    (ofBinary64 value).isReadable = true := by
  unfold ofBinary64
  split <;> rfl

theorem Datum.isReadable_ofOption {α : Type} {toDatum : α → Datum}
    (h : ∀ value, (toDatum value).isReadable = true) (option : Option α) :
    (ofOption toDatum option).isReadable = true := by
  cases option with
  | none => rfl
  | some value => exact h value

theorem Datum.field?_single {α : Type} {value? : Datum → Option α} {name : String}
    {datum : Datum} : (Datum.record [(name, datum)]).field? value? name = value? datum := by
  simp [field?, record?, Record.required, Record.get?]

theorem Strategy.readsBack : Strategy.codec.ReadsBack := by
  intro strategy h
  change Strategy.ofDatum? strategy.toDatum = some strategy
  cases strategy with
  | fixed =>
      rw [Strategy.toDatum, Strategy.ofDatum?, variant?_tagged (by decide) (by simp)]
      rfl
  | perPanel multiplier | perKilowatt multiplier | perBattery multiplier =>
      have hmultiplier := binary64?_ofBinary64 (List.forall_mem_cons.mp h).1
      rw [Strategy.toDatum, Strategy.ofDatum?,
        variant?_tagged (by simp [fieldsAreReadable]) (by simp)]
      simp [field?_single, hmultiplier]
  | formula expression | unrecognized tag =>
      rw [Strategy.toDatum, Strategy.ofDatum?,
        variant?_tagged (by simp [fieldsAreReadable, isReadable]) (by simp)]
      simp [field?_single]

/-! ## Products -/

def Offer.floats (offer : Offer) : List Binary64 :=
  offer.unitCost.toList

theorem Offer.fieldsAreReadable_fields (offer : Offer) : fieldsAreReadable offer.fields = true := by
  have hcost := isReadable_ofOption isReadable_ofBinary64 offer.unitCost
  have htext : ∀ option, (ofOption .string option).isReadable = true :=
    isReadable_ofOption fun _ => rfl
  simp [Offer.fields, fieldsAreReadable, hcost, htext]

/-- The fields of the offer are in the record. -/
def Record.Holds (record : Record) (offer : Offer) : Prop :=
  ∀ field ∈ offer.fields, record.get? field.1 = some field.2

theorem Record.offer?_of_holds {record : Record} {offer : Offer} (h : record.Holds offer)
    (hfinite : AllFinite offer.floats) :
    record.offer? = some offer ∧ record.lenientOffer? = some offer := by
  have hcost := nullable?_binary64 hfinite
  simp only [Holds, Offer.fields, List.forall_mem_cons] at h
  obtain ⟨hunitCost, hbrand, hmodel, hsku, -⟩ := h
  constructor
  · simp [offer?, optional, hunitCost, hbrand, hmodel, hsku, hcost]
  · simp [lenientOffer?, lenient, defaulted, hunitCost, hbrand, hmodel, hsku, hcost]

def SupplierProduct.floats (product : SupplierProduct) : List Binary64 :=
  product.offer.floats

theorem SupplierProduct.supplierProduct?_fields {product : SupplierProduct}
    {offer? : Record → Option Offer}
    (hoffer : ∀ record : Record, record.Holds product.offer → offer? record = some product.offer) :
    (Datum.record product.fields).supplierProduct? offer? = some product := by
  unfold Datum.supplierProduct?
  refine record?_bind (by decide) rfl fun record hfields => ?_
  simp only [fields, List.forall_mem_append, List.forall_mem_cons] at hfields
  have hread := hoffer record hfields.2
  simp [Record.required, hfields, hread]

def ProductSource.floats : ProductSource → List Binary64
  | .direct offer => offer.floats
  | .supplier product => product.floats

theorem ProductSource.ofDatum?_toDatum {source : ProductSource} (h : AllFinite source.floats) :
    ProductSource.ofDatum? source.toDatum = some source := by
  cases source with
  | direct offer =>
      rw [toDatum, ofDatum?, variant?_tagged offer.fieldsAreReadable_fields (by simp [Offer.fields])]
      simp only [Option.bind_eq_bind, Option.bind_some]
      refine record?_bind (by decide) rfl fun record hfields => ?_
      simp [(Record.offer?_of_holds hfields h).1]
  | supplier product =>
      have hreadable : fieldsAreReadable product.fields = true := by
        simp [SupplierProduct.fields, fieldsAreReadable, isReadable,
          product.offer.fieldsAreReadable_fields]
      have hproduct : (Datum.record product.fields).supplierProduct? Record.offer? = some product :=
        SupplierProduct.supplierProduct?_fields fun record hfields =>
          (Record.offer?_of_holds hfields h).1
      rw [toDatum, ofDatum?,
        variant?_tagged hreadable (by simp [SupplierProduct.fields, Offer.fields])]
      simp [hproduct]

def Candidate.codec : Codec Candidate where
  floats candidate := candidate.source.floats
  toDatum := toDatum
  ofDatum? := ofDatum?

theorem Candidate.readsBack : Candidate.codec.ReadsBack := by
  intro candidate h
  have hsource := ProductSource.ofDatum?_toDatum h
  change Candidate.ofDatum? candidate.toDatum = some candidate
  unfold Candidate.ofDatum? Candidate.toDatum
  refine record?_bind (by decide) rfl fun record hfields => ?_
  simp only [List.forall_mem_cons] at hfields
  simp [Record.required, hfields, hsource]

theorem Record.product?_of_holds {record : Record} {product : Product}
    (hfinite : AllFinite product.offer.floats) (h : record.Holds product.offer)
    (hid : record.get? "supplier_product_id" = some (ofOption .string product.supplierProductId))
    (hsupplier : record.get? "supplier_id" = some (ofOption .string product.supplierId))
    (hname : record.get? "supplier_name" = some (ofOption .string product.supplierName)) :
    record.product? = some product := by
  simp [product?, optional, hid, hsupplier, hname, (Record.offer?_of_holds h hfinite).1]

def Product.codec : Codec Product where
  floats product := product.offer.floats
  toDatum := toDatum
  ofDatum? := ofDatum?

theorem Product.readsBack : Product.codec.ReadsBack := by
  intro product h
  change Product.ofDatum? product.toDatum = some product
  unfold Product.ofDatum? Product.toDatum
  refine record?_bind (by decide) rfl fun record hfields => ?_
  simp only [List.forall_mem_append, List.forall_mem_cons] at hfields
  obtain ⟨⟨hid, hsupplier, hname, -⟩, hoffer⟩ := hfields
  exact Record.product?_of_holds h hoffer hid hsupplier hname

def Line.codec : Codec Line where
  floats line := line.quantity :: line.product.offer.floats
  toDatum := toDatum
  ofDatum? := ofDatum?

theorem Line.readsBack : Line.codec.ReadsBack := by
  intro line h
  obtain ⟨hquantity, hcost⟩ := List.forall_mem_cons.mp h
  have hmoney : Money.ofDatum? line.totalCost.toDatum = some line.totalCost :=
    Money.readsBack line.totalCost (by simp [AllFinite, Money.codec])
  change Line.ofDatum? line.toDatum = some line
  unfold Line.ofDatum? Line.toDatum
  refine record?_bind (by decide) rfl fun record hfields => ?_
  simp only [List.forall_mem_cons] at hfields
  have hoffer : record.Holds line.product.offer := by
    simp [Record.Holds, Offer.fields, hfields]
  have hproduct : record.product? = some line.product := by
    apply Record.product?_of_holds hcost hoffer <;> simp [hfields]
  simp [Record.required, Record.optional, hfields, binary64?_ofBinary64 hquantity, hmoney,
    hproduct]

/-! ## Rules and catalog entries -/

def Rule.codec : Codec Rule where
  floats rule := rule.base :: rule.minimum :: (rule.maximum.toList ++
    (rule.strategy.floats ++ rule.candidates.flatMap Candidate.codec.floats))
  toDatum := toDatum
  ofDatum? := ofDatum?

theorem Rule.readsBack : Rule.codec.ReadsBack := by
  intro rule h
  obtain ⟨hbase, h⟩ := List.forall_mem_cons.mp h
  obtain ⟨hminimum, h⟩ := List.forall_mem_cons.mp h
  obtain ⟨hmaximum, h⟩ := List.forall_mem_append.mp h
  obtain ⟨hmultiplier, hcosts⟩ := List.forall_mem_append.mp h
  have hstrategy : Strategy.ofDatum? rule.strategy.toDatum = some rule.strategy :=
    Strategy.readsBack rule.strategy hmultiplier
  have hcandidates : (Datum.ofList Candidate.toDatum rule.candidates).list? Candidate.ofDatum? =
      some rule.candidates := by
    apply list?_ofList
    intro candidate hcandidate
    exact Candidate.readsBack candidate (forall_mem_flatMap.mp hcosts candidate hcandidate)
  change Rule.ofDatum? rule.toDatum = some rule
  unfold Rule.ofDatum? Rule.toDatum
  refine record?_bind (by decide) rfl fun record hfields => ?_
  simp only [List.forall_mem_cons] at hfields
  simp [Record.required, Record.optional, hfields, binary64?_ofBinary64 hbase,
    binary64?_ofBinary64 hminimum, nullable?_binary64 hmaximum, hstrategy, hcandidates]

def CatalogCandidate.floats (entry : CatalogCandidate) : List Binary64 :=
  entry.offer.floats ++ entry.supplierProduct.toList.flatMap SupplierProduct.floats

theorem CatalogCandidate.ofDatum?_toDatum {entry : CatalogCandidate}
    (h : AllFinite entry.floats) : CatalogCandidate.ofDatum? entry.toDatum = some entry := by
  obtain ⟨hcost, hproducts⟩ := List.forall_mem_append.mp h
  have hproduct : (ofOption (fun product => .record product.fields)
      entry.supplierProduct).nullable? (Datum.supplierProduct? Record.lenientOffer?) =
        some entry.supplierProduct := by
    apply nullable?_ofOption (by simp)
    intro product hmem
    have hfinite := forall_mem_flatMap.mp hproducts product (Option.mem_toList.mpr hmem)
    exact SupplierProduct.supplierProduct?_fields fun record hfields =>
      (Record.offer?_of_holds hfields hfinite).2
  unfold CatalogCandidate.ofDatum? CatalogCandidate.toDatum
  refine record?_bind (by decide) rfl fun record hfields => ?_
  simp only [List.forall_mem_append, List.forall_mem_cons] at hfields
  have hoffer := (Record.offer?_of_holds hfields.1.2 hcost).2
  simp [Record.lenient, Record.defaulted, hfields, hoffer, hproduct]

def CatalogEntry.codec : Codec CatalogEntry where
  floats entry := entry.multiplier :: entry.base :: entry.minimum :: (entry.maximum.toList ++
    entry.products.flatMap CatalogCandidate.floats)
  toDatum := toDatum
  ofDatum? := ofDatum?

theorem CatalogEntry.readsBack : CatalogEntry.codec.ReadsBack := by
  intro entry h
  obtain ⟨hmultiplier, h⟩ := List.forall_mem_cons.mp h
  obtain ⟨hbase, h⟩ := List.forall_mem_cons.mp h
  obtain ⟨hminimum, h⟩ := List.forall_mem_cons.mp h
  obtain ⟨hmaximum, hcosts⟩ := List.forall_mem_append.mp h
  have hproducts : (Datum.ofList CatalogCandidate.toDatum entry.products).list?
      CatalogCandidate.ofDatum? = some entry.products := by
    apply list?_ofList
    intro product hproduct
    exact CatalogCandidate.ofDatum?_toDatum (forall_mem_flatMap.mp hcosts product hproduct)
  change CatalogEntry.ofDatum? entry.toDatum = some entry
  unfold CatalogEntry.ofDatum? CatalogEntry.toDatum
  refine record?_bind (by decide) rfl fun record hfields => ?_
  simp only [List.forall_mem_cons] at hfields
  simp [Record.required, Record.lenient, Record.defaulted, hfields,
    binary64?_ofBinary64 hmultiplier, binary64?_ofBinary64 hbase, binary64?_ofBinary64 hminimum,
    nullable?_binary64 hmaximum, hproducts]

/-! ## Configurations -/

def Config.codec : Codec Config where
  floats _ := []
  toDatum := toDatum
  ofDatum? := ofDatum?

theorem Config.readsBack : Config.codec.ReadsBack := by
  intro config _
  have hcatalog : (Datum.record [("path", ofOption .string config.catalogPath)]).record? ["path"]
      >>= catalogPathOf? = some config.catalogPath := by
    refine record?_bind (by decide) rfl fun settings hfields => ?_
    simp only [List.forall_mem_cons] at hfields
    simp [catalogPathOf?, Record.lenient, Record.defaulted, hfields]
  have hcalculation : (Datum.record [("include_optional", .bool config.includeOptional),
      ("categories", ofOption (Datum.ofList .string) config.categories)]).record?
        ["include_optional", "categories"] >>= selectionOf? =
          some { includeOptional := config.includeOptional, categories := config.categories } := by
    refine record?_bind (by decide) rfl fun settings hfields => ?_
    simp only [List.forall_mem_cons] at hfields
    simp [selectionOf?, Record.lenient, Record.defaulted, hfields]
  have htax : (Datum.record [("rate_bps", config.taxRate.toDatum)]).record? ["rate_bps"]
      >>= taxRateOf? = some config.taxRate := by
    have hrate : TaxRate.ofDatum? config.taxRate.toDatum = some config.taxRate :=
      TaxRate.readsBack config.taxRate (by simp [AllFinite, TaxRate.codec])
    refine record?_bind (by decide) rfl fun settings hfields => ?_
    simp only [List.forall_mem_cons] at hfields
    simp [taxRateOf?, Record.defaulted, hfields, hrate]
  change Config.ofDatum? config.toDatum = some config
  unfold Config.ofDatum? Config.ofRecords? Config.toDatum
  refine record?_bind (by decide) rfl fun sections hfields => ?_
  simp only [List.forall_mem_cons] at hfields
  simp only [Record.defaulted, hfields, hcatalog, hcalculation, htax]
  rfl

end SolarTakeoff
