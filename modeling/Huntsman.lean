import Huntsman.Crawl.Wrap
import Huntsman.Geohash
import Huntsman.Graph.Validate
import Huntsman.Lib.Timeline
import Huntsman.Graph.Order
import Huntsman.Lib.Tally
import Huntsman.Graph.Output
import Huntsman.Graph.Attempt
import Huntsman.Graph.Run
import Huntsman.Graph.Execute
import Huntsman.Graph.Moves
import Huntsman.Graph.Sound
import Huntsman.Graph.Steps
import Huntsman.Graph.Select
import Huntsman.Graph.Wave
import Huntsman.Graph.Iterate
import Huntsman.Graph.Finish
import Huntsman.Graph.Prepare
import Huntsman.Graph.Guarantees
import Huntsman.Graph.Ending
import Huntsman.Graph.Chain
import Huntsman.Graph.Spacing
import Huntsman.Graph.Resume
import Huntsman.Lib.Worklist
import Huntsman.Pattern.Node
import Huntsman.Pattern.Parse
import Huntsman.Pattern.Reading
import Huntsman.Pattern.Code
import Huntsman.Pattern.Denote
import Huntsman.Pattern.Search
import Huntsman.Pattern.Copies
import Huntsman.Dns.Parse
import Huntsman.Dns.Layout
import Huntsman.Dns.RoundTrip
import Huntsman.ScanLog.Store
import Huntsman.ScanLog.Kept
import Huntsman.ScanLog.Serde
import Huntsman.Lib.Groups
import Huntsman.Merge.Values
import Huntsman.Merge.Records
import Huntsman.Merge.Entities
import Huntsman.Merge.Spellings
import Huntsman.Canonical.Forms
import Huntsman.Canonical.Stable
import Huntsman.Canonical.Numbers
import Huntsman.Canonical.Links
import Huntsman.Canonical.Normalise
import Huntsman.Netblock
import Huntsman.Ledger
import Huntsman.Base64
import Huntsman.Breaker
import Huntsman.RunHistory
import Huntsman.RunHistory.Serde
import Huntsman.Apk.Archive
import Huntsman.Apk.Digest
import Huntsman.Apk.Binding
import Huntsman.Apk.Der
import Huntsman.Apk.Signer
import Huntsman.Apk.Nested
import Huntsman.Elements.Descriptors
import Huntsman.Elements.Walk
import Huntsman.Elements.Tree
import Huntsman.Elements.Retain
import Huntsman.Axml.Decode
import Huntsman.Axml.Encode
import Huntsman.Axml.Strings
import Huntsman.Axml.Manifest
import Huntsman.Axml.RoundTrip
import Huntsman.Axml.Bounds
import Huntsman.Axml.ReadBack
import Huntsman.Axml.Elements
import Huntsman.Axml.Components
import Huntsman.Arsc.Pool
import Huntsman.Graph.Kahn
import Huntsman.Graph.Declared
import Huntsman.Graph.Redeclare
import Huntsman.RateLimit
import Huntsman.Collection
import Huntsman.Lib.Transitions
import Huntsman.Lock
import Huntsman.Scans.Changes
import Huntsman.Scans.Kept
import Huntsman.Scans.Capacity
import Huntsman.Scans.Guarantees
import Huntsman.Lib.Scan
import Huntsman.Xlsx.Cells
import Huntsman.Xlsx.Worksheet
import Huntsman.Xlsx.Names
import Huntsman.Xlsx.Zip
import Huntsman.Lib.Crc
import Huntsman.Lib.Offsets
import Huntsman.Xlsx.Directory
import Huntsman.Xlsx.Workbook
import Huntsman.Continuous.Cycle
import Huntsman.Continuous.Alerts
import Huntsman.Crawl.Dispatch
import Huntsman.Crawl.Kept
import Huntsman.Lib.Forest
import Huntsman.UnionFind
import Huntsman.Ancestry.Graph
import Huntsman.Ancestry.Roots
import Huntsman.Ancestry.Routes
import Huntsman.Lib.PriorityQueue
import Huntsman.Lib.WidestPath
import Huntsman.Relation.Clusters
import Huntsman.Relation.Index
import Huntsman.Relation.Search
import Huntsman.Lib.Cells
import Huntsman.Relation.Shapes
import Huntsman.Relation.Strongest
import Huntsman.EntityGraph.Build
import Huntsman.Lib.Cores
import Huntsman.EntityGraph.Coreness
import Huntsman.Lib.SearchForest
import Huntsman.Lib.LowLink
import Huntsman.EntityGraph.Bridges
import Huntsman.Dns.Query
import Huntsman.Dns.Bounds
import Huntsman.Crawl.Checkpoint
import Huntsman.Yaml.Line
import Huntsman.Yaml.Reader
import Huntsman.Yaml.Bounds
import Huntsman.Yaml.Quote
import Huntsman.Yaml.Document
import Huntsman.Lib.Halving
import Huntsman.Lib.Iteration
import Huntsman.Lib.Lru
import Huntsman.ResponseCache
import Huntsman.BreakerRegistry
import Huntsman.Lib.Utf8
import Huntsman.TextNorm.Case
import Huntsman.TextNorm.References
import Huntsman.TextNorm.Escape
import Huntsman.ScanExport.Table
import Huntsman.Pipeline
import Huntsman.Lib.Reading
import Huntsman.Apk.Elf
import Huntsman.Arsc.Inside
import Huntsman.Lib.Calendar
import Huntsman.TimeFmt.Civil
import Huntsman.TimeFmt.Digits
import Huntsman.TimeFmt.HttpDate
import Huntsman.TimeFmt.Timestamp
import Huntsman.EvidenceRegister.Rows
import Huntsman.EvidenceRegister.Compile
import Huntsman.Lib.Base128
import Huntsman.X509.Oid
import Huntsman.Exif.Cap
import Huntsman.DocMeta.Values
import Huntsman.DocMeta.Fields
import Huntsman.Exif.Render
import Huntsman.Exif.Directory
import Huntsman.Lib.Template
import Huntsman.SfCorrelate.Title
import Huntsman.Pattern.Grammar
import Huntsman.Canonical.Phones
