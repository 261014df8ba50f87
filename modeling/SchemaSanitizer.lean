import SchemaSanitizer.Idempotence
import SchemaSanitizer.Outputs
import SchemaSanitizer.Evidence
import SchemaSanitizer.Absent
import SchemaSanitizer.Nulls
import SchemaSanitizer.Generation
import SchemaSanitizer.TakeNext
import SchemaSanitizer.ParquetReader
import SchemaSanitizer.Timestamp
import SchemaSanitizer.WellFormed
import SchemaSanitizer.VersionRange
import SchemaSanitizer.ContractEvolution
import SchemaSanitizer.SchemaNames
import SchemaSanitizer.Variants
import SchemaSanitizer.Strategy
import SchemaSanitizer.MemoryHost
import SchemaSanitizer.CsvWriter
import SchemaSanitizer.PermitFairness
import SchemaSanitizer.NumberText
import SchemaSanitizer.CompactThrift
