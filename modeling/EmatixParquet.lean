import EmatixParquet.Async.Open
import EmatixParquet.Async.Read
import EmatixParquet.Codec.RoundTrip
import EmatixParquet.Codec.AttachedBloom
import EmatixParquet.Codec.Batches
import EmatixParquet.Codec.BitFields
import EmatixParquet.Codec.ByteStreamSplit
import EmatixParquet.Codec.DeltaBytes
import EmatixParquet.Codec.DictPreserved
import EmatixParquet.Codec.EncodedSize
import EmatixParquet.Codec.DowncastRead
import EmatixParquet.Codec.HostileBloom
import EmatixParquet.Codec.LevelsAgree
import EmatixParquet.Codec.Lz4
import EmatixParquet.Codec.HybridBits
import EmatixParquet.Codec.Nullable
import EmatixParquet.Codec.OffsetsAgree
import EmatixParquet.Codec.PageIndex
import EmatixParquet.Codec.SchemaTree
import EmatixParquet.Codec.WriteTotal
import EmatixParquet.Format.Hostile
import EmatixParquet.Format.VarintExact
import EmatixParquet.Iceberg.Forward
import EmatixParquet.Iceberg.Candidates
import EmatixParquet.Iceberg.Pruning
import EmatixParquet.Index.Fingerprint
import EmatixParquet.Index.ManifestEnds
import EmatixParquet.Wire.Group
import EmatixParquet.Wire.Search
import EmatixParquet.Crypto.Aad
import EmatixParquet.Codec.EncryptedFooter
import EmatixParquet.Index.Exact
import EmatixParquet.Index.Sorted
import EmatixParquet.Codec.MaskedWritten
import EmatixParquet.Index.LazyRead
import EmatixParquet.Index.BloomPages
import EmatixParquet.Codec.Parallel
import EmatixParquet.Codec.SingleColumn
import EmatixParquet.Codec.EncryptedColumn
import EmatixParquet.Codec.BoolColumn
import EmatixParquet.Codec.LateColumn
