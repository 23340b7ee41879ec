import Wildcard.Token
import Wildcard.Features
import Wildcard.Slot
import Wildcard.Pattern
import Wildcard.Outlook
import Wildcard.Subject
import Wildcard.Recorder
import Wildcard.Spans
import Wildcard.Leg
import Wildcard.Search
import Wildcard.Matching
import Wildcard.Division
import Wildcard.Segments
import Wildcard.Session
import Wildcard.Cache
import Wildcard.PatternSet
import Wildcard.PatternSet.Options
import Wildcard.Json
import Wildcard.PatternSet.Encoding
import Wildcard.Proofs.Compiling
import Wildcard.Proofs.Tables
import Wildcard.Proofs.Route
import Wildcard.Proofs.Positions
import Wildcard.Proofs.Record
import Wildcard.Proofs.Matching
import Wildcard.Proofs.Keeping
import Wildcard.Proofs.Conservation
import Wildcard.Proofs.Masking
import Wildcard.Proofs.Language
import Wildcard.Proofs.Window
import Wildcard.Proofs.Segmentwise
import Wildcard.Proofs.Verdict
import Wildcard.Proofs.Reading
import Wildcard.Proofs.Recency
import Wildcard.Proofs.Loop
import Wildcard.Proofs.AbsentSeparator
import Wildcard.Proofs.PlainPrefix
import Wildcard.Proofs.Checked
import Wildcard.Proofs.Remembering
import Wildcard.Proofs.Lookups
import Wildcard.Proofs.Walk
import Wildcard.Proofs.Cursors
import Wildcard.Proofs.Sharing
import Wildcard.Proofs.AcrossSegments
import Wildcard.Proofs.Feasible
import Wildcard.Proofs.Satisfiable
import Wildcard.Proofs.PlainPatterns
import Wildcard.Proofs.TrailingSegments
import Wildcard.Proofs.LeastCut
import Wildcard.Proofs.Scans
import Wildcard.Proofs.Rescanning
import Wildcard.Proofs.WithoutSeparator
import Wildcard.Proofs.StarNeighbours
import Wildcard.Proofs.Escapes
import Wildcard.Proofs.BothEnds
import Wildcard.Proofs.Acceptance
import Wildcard.Proofs.Faults
import Wildcard.Proofs.JsonOptions
import Wildcard.Proofs.Reports
