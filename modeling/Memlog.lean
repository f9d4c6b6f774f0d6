import Memlog.RingBuffer
import Memlog.StringFormat
import Memlog.Scan
import Memlog.Deferred
import Memlog.Log
import Memlog.Collector
import Memlog.Ids
import Memlog.Atomic
import Memlog.Stream
import Memlog.Lib.Orbit
import Memlog.Entries
import Memlog.Journal
import Memlog.Walk
import Memlog.Collected
import Memlog.Ordered
import Memlog.Resync
import Memlog.Dump
import Memlog.Allocate
import Memlog.Writers
import Memlog.Blank
import Memlog.Recover
import Memlog.Bounds
import Memlog.Failure
import Memlog.CatchUp
import Memlog.Sprintf
import Memlog.Rendering
import Memlog.Lib.Layout
import Memlog.Agreement
import Memlog.Malformed
import Memlog.Laid
import Memlog.Producers
import Memlog.Delivered
import Memlog.Lib.Cursor
import Memlog.Lib.Related
import Memlog.Worker
import Memlog.Consumer
import Memlog.Lifecycle
import Memlog.Session
import Memlog.Dumper
import Memlog.Copying
import Memlog.Plain
import Memlog.Printed
import Memlog.Lib.Cas
import Memlog.Atomic32
import Memlog.Progress
