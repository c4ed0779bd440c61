import Cclab.ShmmqOverwrite
import Cclab.ShmmqMutex
import Cclab.ShmmqGeometry
import Cclab.ShmmqFailures
import Cclab.TcpDelivery
import Cclab.HttpIsolation
import Cclab.HttpFragments
import Cclab.HttpBuffered
import Cclab.HttpLeaving
import Cclab.HttpMethodGuess
import Cclab.HttpAccepts
import Cclab.HttpReads
import Cclab.HttpTarget
import Cclab.ResourceCacheRecency
import Cclab.ResourceCacheExpiry
import Cclab.ResourceCacheCapacity
import Cclab.HashtableRuns
import Cclab.IobufStrings
import Cclab.IobufShared
import Cclab.S3XmlNavigation
import Cclab.S3XmlRoot
import Cclab.Hash
import Cclab.HashtableAddresses
import Cclab.HashtableFill
import Cclab.HashtableApply
import Cclab.Rotation
import Cclab.HashtableRotation
import Cclab.HashtableDestroy
import Cclab.IobufAppend
import Cclab.ShmmqClear
import Cclab.ShmmqSlots
import Cclab.PhpStripTags
import Cclab.S3XmlExtend
import Cclab.PhpStripSteps
import Cclab.PhpStripReads
import Cclab.PhpStripBounds
import Cclab.PhpStripIdempotent
import Cclab.IobufChanges
import Cclab.IobufAtomic
import Cclab.IobufConfined
import Cclab.IobufCounts
import Cclab.LinkedCells
import Cclab.AeModel
import Cclab.AeRuns
import Cclab.AeFiles
import Cclab.AeTimers
import Cclab.AeDue
import Cclab.AePass
import Cclab.AeServer
import Cclab.Zmalloc
import Cclab.FieldSlices
import Cclab.UrlModel
import Cclab.UrlHost
import Cclab.UrlPass
import Cclab.UrlScan
import Cclab.UrlTable
import Cclab.UrlGrammar
