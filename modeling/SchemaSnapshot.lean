import SchemaSnapshot.Main
import SchemaSnapshot.Observation
import SchemaSnapshot.Proofs.Fetch.Runs
import SchemaSnapshot.Proofs.Fetch.Client
import SchemaSnapshot.Proofs.Program
import SchemaSnapshot.Proofs.File.Overwrite
import SchemaSnapshot.Proofs.Json.Truncation
import SchemaSnapshot.Proofs.Fetch.Report
import SchemaSnapshot.Proofs.Http.Redirects
import SchemaSnapshot.Proofs.Fetch.Requests
import SchemaSnapshot.Proofs.Url.Extension
import SchemaSnapshot.Proofs.Fetch.Endpoint
import SchemaSnapshot.Proofs.Document.Numbers
import SchemaSnapshot.Proofs.Document.Objects
import SchemaSnapshot.Proofs.Document.Equality
import SchemaSnapshot.Proofs.File.Commute
import SchemaSnapshot.Proofs.Document.Layout
import SchemaSnapshot.Proofs.Fetch.RequestLine
import SchemaSnapshot.Proofs.Text.Quoted
import SchemaSnapshot.Proofs.Fetch.InvalidUrl
import SchemaSnapshot.Proofs.CommandLine.Spelling
import SchemaSnapshot.Proofs.Fetch.Unreadable
