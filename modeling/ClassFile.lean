import ClassFile.Access
import ClassFile.Accessor
import ClassFile.Annotations
import ClassFile.Annotations.Reading
import ClassFile.Annotations.Writing
import ClassFile.Assignable
import ClassFile.Attribute.Order
import ClassFile.Attribute.Table
import ClassFile.Attribute.Writing
import ClassFile.Bytes
import ClassFile.ClassView
import ClassFile.Code.Bytecode
import ClassFile.Code.Labels
import ClassFile.Code.Layout
import ClassFile.Code.Reading
import ClassFile.Code.StaleOffsets
import ClassFile.Code.Writing
import ClassFile.CommandLine.Arguments
import ClassFile.CommandLine.Run
import ClassFile.Constant
import ClassFile.Cursor
import ClassFile.Decimal.Binary
import ClassFile.Decimal.Shortest
import ClassFile.Declarations
import ClassFile.Descriptor.Grammar
import ClassFile.Descriptor.Parameters
import ClassFile.Descriptor.Signature
import ClassFile.Descriptor.ValueKind
import ClassFile.Error
import ClassFile.Files.Archive.Directory
import ClassFile.Files.Archive.ExtraFields
import ClassFile.Files.Archive.Layout
import ClassFile.Files.Archive.Opening
import ClassFile.Files.Archive.Packing
import ClassFile.Files.Checksum
import ClassFile.Files.ClassPath
import ClassFile.Files.Tree
import ClassFile.Instruction
import ClassFile.Instruction.Printed
import ClassFile.Json.Pretty
import ClassFile.Json.Reader
import ClassFile.Json.Value
import ClassFile.Malformed
import ClassFile.Names
import ClassFile.Naming.Document
import ClassFile.Naming.Entries
import ClassFile.Naming.Segments
import ClassFile.Naming.Table
import ClassFile.Naming.Translator
import ClassFile.Opcode
import ClassFile.Opcode.Mnemonic
import ClassFile.Pool
import ClassFile.Pool.Format
import ClassFile.Pool.Interning
import ClassFile.Pool.Lookup
import ClassFile.Record
import ClassFile.Record.Parse
import ClassFile.Record.Serialize
import ClassFile.Report
import ClassFile.Resolver
import ClassFile.Search
import ClassFile.Store
import ClassFile.Text.CodePage437
import ClassFile.Text.Hex
import ClassFile.Text.ModifiedUtf8
import ClassFile.Text.Printable
import ClassFile.Text.Quoted
import ClassFile.Text.Units
import ClassFile.Text.Utf8
import ClassFile.Unencodable
import ClassFile.Main
import ClassFile.Proofs.Reading
import ClassFile.Proofs.TextEncoding
import ClassFile.Proofs.Pool.Growth
import ClassFile.Proofs.Pool.Numbering
import ClassFile.Proofs.Pool.Names
import ClassFile.Proofs.Pool.Constants
import ClassFile.Proofs.Pool.Format
import ClassFile.Proofs.Annotations
import ClassFile.Proofs.Attribute.Order
import ClassFile.Proofs.Attribute.Arrangement
import ClassFile.Proofs.Attribute.Table
import ClassFile.Proofs.Code.Bytecode
import ClassFile.Proofs.Code.Instructions
import ClassFile.Proofs.Code.Layout
import ClassFile.Proofs.Code.Labels
import ClassFile.Proofs.Code.Bodies
import ClassFile.Proofs.Record.Members
import ClassFile.Proofs.Record.Pieces
import ClassFile.Proofs.Record.Outline
import ClassFile.Proofs.Code.Forms
import ClassFile.Proofs.Record.Views
import ClassFile.Proofs.Record.CanonicalFiles
import ClassFile.Proofs.Code.Operations
import ClassFile.Proofs.Record.Operations
import ClassFile.Proofs.Record.RoundTrip
import ClassFile.Proofs.Pool.ReadBack
import ClassFile.Proofs.Record.KeptNumbers
import ClassFile.Proofs.Record.KeptAttributes
import ClassFile.Proofs.Record.HiddenBytes
import ClassFile.Proofs.Attribute.Limits
import ClassFile.Proofs.Code.Limits
import ClassFile.Proofs.Record.Limits
import ClassFile.Proofs.Record.AddedMethods
import ClassFile.Proofs.Code.Insertions
import ClassFile.Residents
import ClassFile.Proofs.Resolver.Worlds
import ClassFile.Proofs.Resolver.Walks
import ClassFile.Proofs.Resolver.Tables
import ClassFile.Proofs.Record.Prefixes
import ClassFile.Proofs.Record.PlainMethods
import ClassFile.Proofs.Code.Room
import ClassFile.Proofs.Accessors
import ClassFile.Proofs.Descriptor.Types
import ClassFile.Proofs.Naming.Segments
import ClassFile.Proofs.Naming.Lookups
import ClassFile.Proofs.Naming.Inverse
import ClassFile.Proofs.Naming.Calls
import ClassFile.Proofs.Resolver.Chains
import ClassFile.Proofs.Code.FreshLabels
import ClassFile.Proofs.Code.ExactLabels
import ClassFile.Proofs.Attribute.Leftover
import ClassFile.Proofs.Descriptor.Parts
import ClassFile.Proofs.Pool.Requests
import ClassFile.Proofs.Pool.Resolution
import ClassFile.Proofs.TextSequences
import ClassFile.Proofs.Naming.Descriptors
import ClassFile.Proofs.Naming.Outdated
import ClassFile.Proofs.Search
import ClassFile.Proofs.Record.StaleOffsets
import ClassFile.Proofs.CommandLine.Fields
import ClassFile.Proofs.Naming.Spellings
import ClassFile.Proofs.Code.Sizes
import ClassFile.Proofs.Resolver.Storing
import ClassFile.Proofs.Files.ClassPath
import ClassFile.Proofs.Files.Archives
import ClassFile.Proofs.Files.Exchange
import ClassFile.Proofs.Sorting
import ClassFile.Proofs.Utf8
import ClassFile.Proofs.Files.Paths
