import OrgCursor.Text.Utf8
import OrgCursor.Rust.Prim
import OrgCursor.Text.Str
import OrgCursor.Metric
import OrgCursor.Cursor.Basic
import OrgCursor.Cursor.Lines
import OrgCursor.Cursor.Skip
import OrgCursor.Cursor.Search
import OrgCursor.Cursor.Regex
import OrgCursor.Cursor.Invariant
