/-
SchemaSanitizer/Rows.lean

Rows to batches (`internal/materialization/row_appender.cc`,
`direct_scalar_rows.cc`, `field_lookup.cc`, `batch_appender.cc`).  A worker
prepares a row as cells and the coordinator appends them; the serial path
appends a row at once and has a shortcut for plans whose columns are all
scalars, with its own loop over the columns.

The shortcut always routes fields by the snapshot, while the preparation of a
narrow plan looks every column up by name.  `appendRows_eq_prepareRows` says
that the two paths agree on all rows for which the two lookups do, and on every
row for all other plans; `appendRow_other_cell` is a row on which they differ.
-/
import SchemaSanitizer.Failures

namespace SchemaSanitizer

open List

/-! ### Preparation of a row -/

/-- `RowRef`: the fields of a row and the file it comes from. -/
structure RowRef where
  fields : Row
  sourceFile : Bytes := []

section Prepare

variable (opts : ConvertOptions) (plan : CompiledPlan)

/-- `FieldLookup::has_unplanned_field`: the key of the first such field. -/
def hasUnplannedField (layout : StructLayout) (fields : Row) : Option Bytes :=
  (fields.find? fun f =>
    !matchesPlannedField layout opts.toNameOptions f.1 && !f.2.containerIsEmpty).map Prod.fst

/-- The column is filled with the name of the source file. -/
def takesSourceFile (row : RowRef) (column : ColumnPlan) : Bool :=
  column.name == bytes "source_file" && row.sourceFile != []

/-- The snapshot of a row. -/
def snapshotSource (row : RowRef) (index : Nat) (_ : ColumnPlan) : Option Value :=
  snapshotFind (buildSnapshot opts plan.rootLayout plan.columns row.fields) row.fields index

/-- One lookup per column: by name, without a flattening suffix, and by the
base of the version family. -/
def lookupSource (row : RowRef) (_ : Nat) (column : ColumnPlan) : Option Value :=
  (findUnflattened opts row.fields column.name).or
    (if column.hasVariantSibling && variantFamilyBase column.name != column.name then
      findField opts row.fields (variantFamilyBase column.name)
    else none)

/-- The value of a root column in `convert_materialized_cells`. -/
def rootSource (row : RowRef) (index : Nat) (column : ColumnPlan) : Option Value :=
  if takesSourceFile row column then some (.string row.sourceFile)
  else if shouldSnapshot plan.columns then snapshotSource opts plan row index column
  else lookupSource opts row index column

/-- The check of the fields of a row under a strict contract. -/
def checkStrictRow (row : RowRef) : Except Bytes Unit :=
  match if opts.rejectsUnknown then hasUnplannedField opts plan.rootLayout row.fields else none with
  | some extra => .error (bytes "Strict schema evolution: observed extra field '" ++
    extra ++ bytes "'")
  | none => .ok ()

/-- `convert_materialized_cells`: a failed status, a coercion error, or cells. -/
def convertMaterializedCells (row : RowRef) : Except Bytes (Except CoerceError (List Cell)) := do
  checkStrictRow opts plan row
  .ok (convertSiblings opts plan.columns (rootSource opts plan row) 0 plan.columns)

/-- `AppendRowResult`. -/
structure AppendRowResult where
  code : DiagnosticCode := .unknown
  path : List Bytes := []
  detail : Bytes := []
  deriving DecidableEq, Repr

/-- `PreparedRowAction`, with the cells of a prepared row. -/
inductive PreparedRowAction
  | appendCells (cells : List Cell)
  | appendNull
  | skip

/-- `PreparedRow`. -/
structure PreparedRow where
  action : PreparedRowAction
  result : AppendRowResult := {}

/-- `prepared_error_for_policy`, with `result_for_policy`; the count of skipped
rows is carried along. -/
def preparedErrorForPolicy (error : CoerceError) (skippedRows : Nat) :
    Except Bytes (PreparedRow × Nat) :=
  match opts.onError with
  | .stop => .error error.detail
  | .skipRow => .ok (⟨.skip, ⟨.rowSkipped, error.path, error.detail⟩⟩, skippedRows + 1)
  | .emitNullRow => .ok (⟨.appendNull, {}⟩, skippedRows)

/-- `prepare_materialized_row`. -/
def prepareMaterializedRow (row : RowRef) (skippedRows : Nat) :
    Except Bytes (PreparedRow × Nat) := do
  match ← convertMaterializedCells opts plan row with
  | .ok cells => .ok (⟨.appendCells cells, {}⟩, skippedRows)
  | .error error => preparedErrorForPolicy opts error skippedRows

end Prepare

/-! ### Appending -/

/-- `BatchAppender`: the cells that the column builders hold, the last one
first.  The builders are made from the plan, one per column. -/
structure BatchAppender (plan : CompiledPlan) where
  columns : List (List Cell)
  length_eq : columns.length = plan.columns.length

/-- An appender without rows (`make_batch_appender`). -/
def BatchAppender.empty (plan : CompiledPlan) : BatchAppender plan where
  columns := plan.columns.map fun _ => []
  length_eq := length_map _

/-- A cell for every column: `RootStructBuilder::append`, and
`append_direct_row`, where a direct scalar is a cell. -/
def BatchAppender.push {plan : CompiledPlan} (app : BatchAppender plan) (mismatch : Bytes)
    (cells : List Cell) : Except Bytes (BatchAppender plan) :=
  if h : cells.length = plan.columns.length then
    .ok ⟨List.zipWith List.cons cells app.columns, by
      rw [length_zipWith, h, app.length_eq, Nat.min_self]⟩
  else .error mismatch

/-- `BatchAppender::append_cells`. -/
def BatchAppender.appendCells {plan : CompiledPlan} (app : BatchAppender plan) :
    List Cell → Except Bytes (BatchAppender plan) :=
  app.push (bytes "root cell child count mismatch")

/-- `BatchAppender::append_direct_scalars`. -/
def BatchAppender.appendDirectScalars {plan : CompiledPlan} (app : BatchAppender plan) :
    List Cell → Except Bytes (BatchAppender plan) :=
  app.push (bytes "direct root scalar count mismatch")

/-- `BatchAppender::append_null_row`. -/
def BatchAppender.appendNullRow {plan : CompiledPlan} (app : BatchAppender plan) :
    BatchAppender plan where
  columns := List.zipWith (fun column cells => convertNull column :: cells) plan.columns app.columns
  length_eq := by rw [length_zipWith, app.length_eq, Nat.min_self]

/-- `append_prepared_row`. -/
def appendPreparedRow {plan : CompiledPlan} (app : BatchAppender plan) (row : PreparedRow) :
    Except Bytes (BatchAppender plan) :=
  match row.action with
  | .appendCells cells => app.appendCells cells
  | .appendNull => .ok app.appendNullRow
  | .skip => .ok app

/-- `supports_direct_scalar_rows`. -/
def supportsDirectScalarRows (plan : CompiledPlan) : Bool :=
  plan.columns.all fun column =>
    !column.hasVariantSibling && column.kind != .struct && column.kind != .list

section Append

variable (opts : ConvertOptions) (plan : CompiledPlan)

/-- `convert_direct_scalar`. -/
def convertDirectScalar (column : ColumnPlan) (v : Value) : Except CoerceError Cell :=
  match column.kind, v with
  | _, .null => .ok (convertNull column)
  | .scalar .utf8, .string s => .ok (.str s)
  | .scalar kind, v => convertScalar opts column kind v
  | _, _ => setConversionError column .typeMismatch
      (bytes "convert_direct_scalar called with nested logical type")

/-- The loop of `try_append_direct_scalar_row`, from a column on. -/
def convertDirectScalars (row : RowRef) : Nat → List ColumnPlan → Except CoerceError (List Cell)
  | _, [] => .ok []
  | index, column :: rest => do
      let source := if takesSourceFile row column then some (.string row.sourceFile)
        else snapshotSource opts plan row index column
      let cell ← convertDirectScalar opts column (sourceValue source)
      let cells ← convertDirectScalars row (index + 1) rest
      .ok (cell :: cells)

/-- `handle_direct_scalar_conversion_error`. -/
def handleDirectScalarConversionError (app : BatchAppender plan) (error : CoerceError)
    (skippedRows : Nat) : Except Bytes (AppendRowResult × BatchAppender plan × Nat) :=
  match opts.onError with
  | .stop => .error error.detail
  | .skipRow => .ok (⟨.rowSkipped, error.path, error.detail⟩, app, skippedRows + 1)
  | .emitNullRow => .ok ({}, app.appendNullRow, skippedRows)

/-- `try_append_direct_scalar_row`: nothing when the plan has other columns. -/
def tryAppendDirectScalarRow (app : BatchAppender plan) (row : RowRef) (skippedRows : Nat) :
    Except Bytes (Option (AppendRowResult × BatchAppender plan × Nat)) :=
  if supportsDirectScalarRows plan then do
    checkStrictRow opts plan row
    match convertDirectScalars opts plan row 0 plan.columns with
    | .ok cells => do
        let app ← app.appendDirectScalars cells
        .ok (some ({}, app, skippedRows))
    | .error error => do
        let r ← handleDirectScalarConversionError opts plan app error skippedRows
        .ok (some r)
  else .ok none

/-- `append_materialized_row_reuse`. -/
def appendMaterializedRowReuse (app : BatchAppender plan) (row : RowRef) (skippedRows : Nat) :
    Except Bytes (AppendRowResult × BatchAppender plan × Nat) := do
  match ← tryAppendDirectScalarRow opts plan app row skippedRows with
  | some direct => .ok direct
  | none =>
    match ← convertMaterializedCells opts plan row with
    | .ok cells => do
        let app ← app.appendCells cells
        .ok ({}, app, skippedRows)
    | .error error => do
        let r ← preparedErrorForPolicy opts error skippedRows
        match r.1.action with
        | .appendCells _ => .error (bytes "append_materialized_row_reuse: invalid error action")
        | .appendNull => .ok (r.1.result, app.appendNullRow, r.2)
        | .skip => .ok (r.1.result, app, r.2)

/-- The worker path for one row: prepared first, then appended. -/
def appendPrepared (app : BatchAppender plan) (row : RowRef) (skippedRows : Nat) :
    Except Bytes (AppendRowResult × BatchAppender plan × Nat) := do
  let r ← prepareMaterializedRow opts plan row skippedRows
  let app ← appendPreparedRow app r.1
  .ok (r.1.result, app, r.2)

end Append

/-- Rows one by one, up to the first error: what the appender holds, the count
of skipped rows, and the error. -/
def appendRows {plan : CompiledPlan} (append : BatchAppender plan → RowRef → Nat →
      Except Bytes (AppendRowResult × BatchAppender plan × Nat)) :
    BatchAppender plan → Nat → List RowRef → BatchAppender plan × Nat × Option Bytes
  | app, skippedRows, [] => (app, skippedRows, none)
  | app, skippedRows, row :: rows =>
    match append app row skippedRows with
    | .error message => (app, skippedRows, some message)
    | .ok r => appendRows append r.2.1 r.2.2 rows

/-! ### The two paths agree -/

theorem sourceValue_nonempty (source : Option Value) :
    (sourceValue source).containerIsEmpty = false := by
  rcases source with - | v
  · rfl
  · rw [sourceValue]
    split
    · rfl
    · rename_i h
      simpa using h

section Agree

variable {opts : ConvertOptions} {plan : CompiledPlan}

theorem convertDirectScalar_eq {column : ColumnPlan} (columns : List ColumnPlan) (index : Nat)
    {v : Value} {kind : ScalarKind} (hkind : column.kind = .scalar kind)
    (hvariant : column.hasVariantSibling = false) (hv : v.containerIsEmpty = false) :
    convertDirectScalar opts column v =
      convertSibling opts columns index column v (convertValue opts column) := by
  by_cases hnull : v = .null
  · rw [hnull]
    unfold convertDirectScalar
    rw [hkind, convertSibling_null]
  · rw [convertSibling_alone opts columns index _ hvariant hnull, convertValue_scalar hkind hv]
    unfold convertDirectScalar
    rw [hkind]
    -- the branch that borrows the text of a string stores what the other one copies
    cases v <;> cases kind <;> rfl

/-- The snapshot and the lookups give every column the same value. -/
def RoutesAgree (opts : ConvertOptions) (plan : CompiledPlan) (row : RowRef) : Prop :=
  ∀ (index : Nat) (column : ColumnPlan), plan.columns[index]? = some column →
    takesSourceFile row column = false →
    sourceValue (snapshotSource opts plan row index column) =
      sourceValue (lookupSource opts row index column)

theorem rootSource_eq_snapshot {row : RowRef}
    (h : plan.columns.length < 8 → RoutesAgree opts plan row) {index : Nat} {column : ColumnPlan}
    (hcolumn : plan.columns[index]? = some column) :
    sourceValue (rootSource opts plan row index column) =
      sourceValue (if takesSourceFile row column then some (.string row.sourceFile)
        else snapshotSource opts plan row index column) := by
  rw [rootSource]
  split
  · rfl
  · rename_i hfile
    split
    · rfl
    · rename_i hnarrow
      have hlength : plan.columns.length < 8 := by
        simp only [shouldSnapshot, Bool.or_eq_true, decide_eq_true_eq, not_or, not_le] at hnarrow
        exact hnarrow.1
      exact (h hlength index column hcolumn (by simpa using hfile)).symm

/-- Direct scalars are what the general conversion gives. -/
theorem convertDirectScalars_eq {row : RowRef} (hdirect : supportsDirectScalarRows plan = true)
    (h : plan.columns.length < 8 → RoutesAgree opts plan row) :
    ∀ (rest : List ColumnPlan) (index : Nat), plan.columns.drop index = rest →
      convertDirectScalars opts plan row index rest =
        convertSiblings opts plan.columns (rootSource opts plan row) index rest
  | [], _, _ => rfl
  | column :: rest, index, hrest => by
    have hcolumn : plan.columns[index]? = some column := by
      rw [← head?_drop, hrest, head?_cons]
    have hscalar := all_eq_true.mp hdirect column (mem_of_getElem? hcolumn)
    simp only [Bool.and_eq_true, Bool.not_eq_true', bne_iff_ne, ne_eq] at hscalar
    obtain ⟨⟨hvariant, hstruct⟩, hlist⟩ := hscalar
    obtain ⟨kind, hkind⟩ : ∃ kind, column.kind = .scalar kind := by
      cases hk : column.kind with
      | scalar kind => exact ⟨kind, rfl⟩
      | struct => exact absurd hk hstruct
      | list => exact absurd hk hlist
    have hnext : plan.columns.drop (index + 1) = rest := by
      rw [← drop_drop, hrest, drop_one, tail_cons]
    rw [convertDirectScalars, convertSiblings, convertDirectScalars_eq hdirect h rest _ hnext,
      rootSource_eq_snapshot h hcolumn]
    rw [convertDirectScalar_eq plan.columns index hkind hvariant (sourceValue_nonempty _)]

theorem convertSiblings_length {columns : List ColumnPlan}
    {source : Nat → ColumnPlan → Option Value} : ∀ {rest : List ColumnPlan} {index : Nat}
    {cells : List Cell}, convertSiblings opts columns source index rest = .ok cells →
      cells.length = rest.length
  | [], _, _, h => by
    cases h
    rfl
  | column :: rest, index, cells, h => by
    rw [convertSiblings] at h
    rcases hcell : convertSibling opts columns index column (sourceValue (source index column))
      (convertValue opts column) with e | cell
    · rw [hcell] at h
      cases h
    · rcases hcells : convertSiblings opts columns source (index + 1) rest with e | cells'
      · rw [hcell, hcells] at h
        cases h
      · rw [hcell, hcells] at h
        cases h
        rw [length_cons, length_cons, convertSiblings_length hcells]

theorem push_ok (app : BatchAppender plan) {cells : List Cell}
    (h : cells.length = plan.columns.length) (mismatch mismatch' : Bytes) :
    ∃ app', app.push mismatch cells = .ok app' ∧ app.push mismatch' cells = .ok app' :=
  ⟨_, dif_pos h, dif_pos h⟩

/-- Reusing the builders appends the row that is prepared. -/
theorem appendMaterializedRowReuse_eq {row : RowRef}
    (h : supportsDirectScalarRows plan = true → plan.columns.length < 8 →
      checkStrictRow opts plan row = .ok () → RoutesAgree opts plan row)
    (app : BatchAppender plan) (skippedRows : Nat) :
    appendMaterializedRowReuse opts plan app row skippedRows =
      appendPrepared opts plan app row skippedRows := by
  unfold appendMaterializedRowReuse appendPrepared prepareMaterializedRow tryAppendDirectScalarRow
    convertMaterializedCells
  rcases hstrict : checkStrictRow opts plan row with message | ⟨⟩
  · -- both paths make the same check first
    split <;> rfl
  split
  · rename_i hdirect
    rw [convertDirectScalars_eq hdirect (fun hlength =>
      h hdirect hlength hstrict) plan.columns 0 rfl]
    rcases hcells : convertSiblings opts plan.columns (rootSource opts plan row) 0 plan.columns
      with error | cells
    · show (do let r ← (do let r ← handleDirectScalarConversionError _ _ _ _ _; _); _) =
        (do let r ← preparedErrorForPolicy _ _ _; _)
      unfold handleDirectScalarConversionError preparedErrorForPolicy
      cases opts.onError <;> rfl
    · obtain ⟨app', happ, happ'⟩ := push_ok app (convertSiblings_length hcells)
        (bytes "direct root scalar count mismatch") (bytes "root cell child count mismatch")
      show (do let r ← (do let app ← app.push _ cells; _); _) = (do let app ← app.push _ cells; _)
      rw [happ, happ']
      rfl
  · rcases convertSiblings opts plan.columns (rootSource opts plan row) 0 plan.columns
      with error | cells
    · show (do let r ← preparedErrorForPolicy _ _ _; _) =
        (do let r ← preparedErrorForPolicy _ _ _; _)
      unfold preparedErrorForPolicy
      cases opts.onError <;> rfl
    · rfl

/-- **Serial and worker-prepared materialization.**  Appending rows one by one
and appending prepared rows leave the same columns, the same count of skipped
rows and the same error, from any state. -/
theorem appendRows_eq_prepareRows (opts : ConvertOptions) (plan : CompiledPlan) (rows : List RowRef)
    (h : supportsDirectScalarRows plan = true → plan.columns.length < 8 →
      ∀ row ∈ rows, checkStrictRow opts plan row = .ok () → RoutesAgree opts plan row)
    (app : BatchAppender plan) (skippedRows : Nat) :
    appendRows (appendMaterializedRowReuse opts plan) app skippedRows rows =
      appendRows (appendPrepared opts plan) app skippedRows rows := by
  induction rows generalizing app skippedRows with
  | nil => rfl
  | cons row rows ih =>
    have hrow := appendMaterializedRowReuse_eq (fun hdirect hlength =>
      h hdirect hlength row mem_cons_self) app skippedRows
    have hrows := ih fun hdirect hlength row' hmem =>
      h hdirect hlength row' (mem_cons_of_mem row hmem)
    rw [appendRows, appendRows, hrow]
    rcases appendPrepared opts plan app row skippedRows with message | r
    · rfl
    · exact hrows r.2.1 r.2.2

end Agree

/-- Options of a run without contract that reads no text as another type. -/
def plainOptions : ConvertOptions where
  toOptions := textOptions 4 4
  onError := .stop
  arrowSchemaContract := false
  schemaEvolution := .additive
  timestampPrecision := .nanos
  doubleOfInt _ := 0
  doubleToString _ := []

/-- Two scalar columns and a row with an unknown field. -/
theorem appendRows_eq_prepareRows_sample :
    appendRows (appendMaterializedRowReuse plainOptions
        (compilePlan ⟨[⟨bytes "a", some (.scalar .int64), true⟩,
          ⟨bytes "b", some (.scalar .utf8), true⟩]⟩))
      (.empty _) 0 [⟨[(bytes "b", .int 7), (bytes "c", .int 9), (bytes "a", .int 1)], []⟩] =
    appendRows (appendPrepared plainOptions
        (compilePlan ⟨[⟨bytes "a", some (.scalar .int64), true⟩,
          ⟨bytes "b", some (.scalar .utf8), true⟩]⟩))
      (.empty _) 0 [⟨[(bytes "b", .int 7), (bytes "c", .int 9), (bytes "a", .int 1)], []⟩] := by
  apply appendRows_eq_prepareRows
  intro _ _ row hrow _ index column hcolumn _
  obtain rfl := mem_singleton.mp hrow
  match index, hcolumn with
  | 0, rfl => rfl
  | 1, rfl => rfl

/-- A plan with a column and its flattened form, and a row with a value for the
first: the serial path leaves the second column null, a prepared row has the
text of the value there. -/
theorem appendRow_other_cell :
    (appendRows (appendMaterializedRowReuse plainOptions
        (compilePlan ⟨[⟨bytes "a", some (.scalar .int64), true⟩,
          ⟨bytes "a_flattened", some (.scalar .utf8), true⟩]⟩))
      (.empty _) 0 [⟨[(bytes "a", .int 1)], []⟩]).1.columns =
        [[.i64 .int64 1], [.null (.scalar .utf8) []]] ∧
    (appendRows (appendPrepared plainOptions
        (compilePlan ⟨[⟨bytes "a", some (.scalar .int64), true⟩,
          ⟨bytes "a_flattened", some (.scalar .utf8), true⟩]⟩))
      (.empty _) 0 [⟨[(bytes "a", .int 1)], []⟩]).1.columns =
        [[.i64 .int64 1], [.str (bytes "1")]] :=
  ⟨rfl, rfl⟩

end SchemaSanitizer
